import Mathlib.Data.List.Forall2
import Mathlib.Data.List.ReduceOption
import N8n.Common.JsonValue
import N8n.WorkflowExecute.WaitingExecution

/-!
# Requests of a node to the engine

A node may ask the engine to run other nodes, its tools, and to run it again with their results. The
tools and the node itself are put on the execution stack through the delivery of a batch.

## Main definitions

* `EngineRequest`: the tools that a node asks for
* `handleRequest`: the deliveries that a request leads to
* `handleEngineRequest`: the execution data after these deliveries
* `StackOp`: what the execution loop does with its stack
* `PopsToolsFirst`: the tools are popped in their order, before the node that asked for them

## Main results

* `popped_in_order`: what is on the stack is popped in its order, whatever else is added
* `popsToolsFirst_iff`: the tools come first exactly under the execution order `v1`, and where none
  of them waits for data at another input
-/

namespace N8n.WorkflowExecute

/-! ## Requests -/

abbrev IDataObject := OrderedMap String JsonValue

structure IPairedItemData where
  item : ℕ
  input : ℕ
  sourceOverwrite : ISourceData

structure INodeExecutionData where
  json : IDataObject
  pairedItem : Option IPairedItemData

structure ActionMetadata where
  parentNodeName : Option String
  itemIndex : Option ℕ

structure EngineAction where
  nodeName : String
  input : IDataObject
  /-- The type of the connection that the request uses. -/
  type : String
  id : String
  metadata : ActionMetadata

structure EngineRequest where
  actions : List EngineAction
  metadata : IDataObject

/-- An action with the run in which its result will be found. -/
structure SubNodeExecutionDataAction where
  action : EngineAction
  nodeName : String
  runIndex : ℕ

structure SubNodeExecutionData where
  actions : List SubNodeExecutionDataAction
  metadata : IDataObject

structure ITaskMetadata where
  nodeWasResumed : Bool
  subNodeExecutionData : Option SubNodeExecutionData
  preserveSourceOverwrite : Bool
  preservedSourceOverwrite : Option ISourceData

/-- A delivery to be made. -/
structure NodeToBeExecuted where
  inputConnectionData : IConnection
  connectionType : String
  parentOutputIndex : ℕ
  parentNode : String
  parentOutputData : InputData INodeExecutionData
  runIndex : ℕ
  nodeRunIndex : ℕ
  metadata : ITaskMetadata

/-- `{ ...object, ...other }` -/
def spread (object other : IDataObject) : IDataObject :=
  (objectKeys other.keys).foldl (fun object key =>
    match other.get? key with
    | none => object
    | some value => object.set key value) object

def buildParentOutputData (json : IDataObject) (parentRunIndex parentOutputIndex : ℕ)
    (parentSourceNode : String) : InputData INodeExecutionData :=
  [some [⟨json, some ⟨parentRunIndex, parentOutputIndex,
    ⟨parentSourceNode, parentOutputIndex, parentRunIndex⟩⟩⟩]]

/-- Give a node one more run, which has no output yet. -/
def initializeNodeRunData (runData : IRunData INodeExecutionData) (nodeName : String) :
    ℕ × IRunData INodeExecutionData :=
  let nodeRunData := (runData.get? nodeName).getD []
  (nodeRunData.length, runData.set nodeName (nodeRunData ++ [[]]))

section Request

variable (workflow : Workflow) (executionData : IExecuteData INodeExecutionData)
variable (taskMetadata : ITaskMetadata) (runIndex : ℕ)

/-- The item that a tool is run on: an item of the node that asks for it, the arguments of the
call, and the id of the call. -/
def toolInput (action : EngineAction) : IDataObject :=
  let batch := (at? executionData.data 0).getD []
  let agentInput := batch[action.metadata.itemIndex.getD 0]?
  (spread (spread .empty (agentInput.elim .empty INodeExecutionData.json)) action.input).set
    "toolCallId" (.string action.id)

/-- The delivery for one action. A parent that the action names has run before. -/
def prepareRequestedNode (runData : IRunData INodeExecutionData) (action : EngineAction) :
    Except String
      (NodeToBeExecuted × SubNodeExecutionDataAction × IRunData INodeExecutionData) :=
  match workflow.nodes.get? action.nodeName with
  | none => .error
    ("Workflow does not contain a node with the name of \"" ++ action.nodeName ++ "\".")
  | some node =>
    let parentSourceData := at? executionData.source runIndex
    let defaultParentOutputIndex := parentSourceData.elim 0 ISourceData.previousNodeOutput
    let defaultParentSourceNode :=
      parentSourceData.elim executionData.node ISourceData.previousNode
    let parentNode := action.metadata.parentNodeName.getD executionData.node
    let parentRunIndex :=
      if action.metadata.parentNodeName.isSome then
        ((runData.get? parentNode).elim 1 List.length) - 1
      else parentSourceData.elim 0 ISourceData.previousNodeRun
    let (nodeRunIndex, runData) := initializeNodeRunData runData node.name
    .ok
      (⟨⟨action.nodeName, 0⟩, action.type, 0, parentNode,
          buildParentOutputData (toolInput executionData action) parentRunIndex
            defaultParentOutputIndex defaultParentSourceNode,
          if action.metadata.parentNodeName.isSome then parentRunIndex else runIndex, nodeRunIndex,
          ⟨false, none, true, some (taskMetadata.preservedSourceOverwrite.getD
            ⟨defaultParentSourceNode, defaultParentOutputIndex, parentRunIndex⟩)⟩⟩,
        ⟨action, action.nodeName, nodeRunIndex⟩, runData)

/-- The deliveries for the actions, in their order. -/
def prepareRequestedNodesForExecution :
    IRunData INodeExecutionData → List EngineAction → Except String
      (List NodeToBeExecuted × List SubNodeExecutionDataAction × IRunData INodeExecutionData)
  | runData, [] => .ok ([], [], runData)
  | runData, action :: actions =>
    match prepareRequestedNode workflow executionData taskMetadata runIndex runData action with
    | .error message => .error message
    | .ok (node, subNode, runData) =>
      match prepareRequestedNodesForExecution runData actions with
      | .error message => .error message
      | .ok (nodes, subNodes, runData) => .ok (node :: nodes, subNode :: subNodes, runData)

/-- The node before the one that asks, which its own delivery comes from. -/
def requestParent : Option String :=
  ((at? executionData.source 0).map ISourceData.previousNode).filter (· ≠ "")

/-- The delivery that makes the node run again. -/
def prepareRequestingNodeForResuming (subNodeExecutionData : SubNodeExecutionData)
    (parentNode : String) : NodeToBeExecuted where
  inputConnectionData := ⟨executionData.node, 0⟩
  connectionType := "ai_tool"
  parentOutputIndex := 0
  parentNode := parentNode
  parentOutputData := executionData.data
  runIndex := runIndex
  nodeRunIndex := runIndex
  metadata := ⟨true, some subNodeExecutionData,
    taskMetadata.preserveSourceOverwrite && taskMetadata.preservedSourceOverwrite.isSome,
    if taskMetadata.preserveSourceOverwrite then taskMetadata.preservedSourceOverwrite else none⟩

/-- The deliveries of a request, the one of the node itself first. A request of a node that no node
comes before is ignored. -/
def handleRequest (request : EngineRequest) (runData : IRunData INodeExecutionData) :
    Except String (List NodeToBeExecuted × IRunData INodeExecutionData) :=
  match prepareRequestedNodesForExecution workflow executionData taskMetadata runIndex runData
    request.actions with
  | .error message => .error message
  | .ok (nodesToBeExecuted, subNodes, runData) =>
    match requestParent executionData with
    | none => .ok ([], runData)
    | some parentNode =>
      let nodesToBeExecuted :=
        if workflow.executionOrder = some .v1 then nodesToBeExecuted.reverse else nodesToBeExecuted
      .ok (prepareRequestingNodeForResuming executionData taskMetadata runIndex
        ⟨subNodes, request.metadata⟩ parentNode :: nodesToBeExecuted, runData)

/-- Make one delivery. Only output 0 is read. The item on the stack gets the run index and the
metadata, too, on which the order of the stack does not depend. -/
def deliver (d : ExecutionData INodeExecutionData) (nodeData : NodeToBeExecuted) :
    ExecutionData INodeExecutionData :=
  addNodeToBeExecuted workflow ⟨.empty, none⟩ d nodeData.inputConnectionData
    nodeData.parentOutputIndex nodeData.parentNode (some (at? nodeData.parentOutputData 0).toList)
    nodeData.runIndex

def handleEngineRequest (request : EngineRequest) (d : ExecutionData INodeExecutionData) :
    Except String (ExecutionData INodeExecutionData) :=
  match handleRequest workflow executionData taskMetadata runIndex request d.runData with
  | .error message => .error message
  | .ok (nodesToBeExecuted, runData) =>
    .ok (nodesToBeExecuted.foldl (deliver workflow) { d with runData := runData })

end Request

/-! ## What the loop does with the stack -/

/-- The loop takes the first item, and items are added at either end. -/
inductive StackOp
  | shift
  | unshift
  | push

/-- The items popped so far and the stack; what was added later is `none`. -/
def StackOp.apply {β : Type} : StackOp → List (Option β) × List (Option β) →
    List (Option β) × List (Option β)
  | shift, (popped, []) => (popped, [])
  | shift, (popped, item :: stack) => (popped ++ [item], stack)
  | unshift, (popped, stack) => (popped, none :: stack)
  | push, (popped, stack) => (popped, stack ++ [none])

/-- The items of a stack that the loop pops in a series of operations. -/
def popped {β : Type} (stack : List β) (ops : List StackOp) : List β :=
  (ops.foldl (fun state op => op.apply state) ([], stack.map some)).1.reduceOption

theorem popped_in_order {β : Type} (stack : List β) (ops : List StackOp) :
    popped stack ops <+: stack := by
  have h : ∀ state : List (Option β) × List (Option β),
      state.1.reduceOption ++ state.2.reduceOption = stack →
        (ops.foldl (fun state op => op.apply state) state).1.reduceOption <+: stack := by
    induction ops with
    | nil => exact fun state hstate => ⟨_, hstate⟩
    | cons op ops ih =>
      rintro ⟨before, after⟩ hstate
      apply ih
      cases op with
      | shift =>
        cases after with
        | nil => exact hstate
        | cons item after =>
          simp only [StackOp.apply, ← List.reduceOption_append] at hstate ⊢
          simpa using hstate
      | unshift => exact hstate
      | push => simpa [StackOp.apply, List.reduceOption_append] using hstate
  refine h _ ?_
  simp [List.reduceOption, List.filterMap_map]

/-! ## Where a delivery puts its item -/

section Deliveries

variable {α : Type} {workflow : Workflow} {emptyItem : α} {d : ExecutionData α}
variable {connectionData : IConnection} {outputIndex runIndex : ℕ} {parentNodeName : String}
variable {nodeSuccessData : Option (List (List α))} {node : String}

inductive Delivered (workflow : Workflow) (d : ExecutionData α) (connectionData : IConnection)
    (batch : Option (List α)) : ExecutionData α → Prop
  | start (hinputs : 1 < workflow.numberOfInputs connectionData.node) (source : Option ISourceData)
    (hall : ((addToWaiting workflow d connectionData batch source).waitingExecution.main
      connectionData.node (waitingNodeIndexFor (d.waitingExecution.entriesOf connectionData.node)
        connectionData.index)).all Option.isSome = true) :
    Delivered workflow d connectionData batch
      (startWaiting workflow (addToWaiting workflow d connectionData batch source)
        connectionData.node (waitingNodeIndexFor (d.waitingExecution.entriesOf connectionData.node)
          connectionData.index))
  | keep (hinputs : 1 < workflow.numberOfInputs connectionData.node) (source : Option ISourceData)
    (started : List (IExecuteData α)) (hstarted : workflow.executionOrder = some .v1 → started = []) :
    Delivered workflow d connectionData batch
      (keepWaiting workflow
        (started.foldl (·.enqueue workflow ·) (addToWaiting workflow d connectionData batch source))
        connectionData (waitingNodeIndexFor (d.waitingExecution.entriesOf connectionData.node)
          connectionData.index) batch)
  | enqueue (item : IExecuteData α) (hitem : item.node = connectionData.node)
    (hinputs : workflow.numberOfInputs connectionData.node ≤ 1) :
    Delivered workflow d connectionData batch (d.enqueue workflow item)
  | none : Delivered workflow d connectionData batch d

theorem addNodeToBeExecuted_of_inputs (hnode : (workflow.nodes.get? connectionData.node).isSome)
    (hinputs : workflow.numberOfInputs connectionData.node ≤ 1) :
    addNodeToBeExecuted workflow emptyItem d connectionData outputIndex parentNodeName
        nodeSuccessData runIndex =
      d.enqueue workflow ⟨connectionData.node,
        setAt [] connectionData.index (nodeSuccessData.bind (·[outputIndex]?)),
        [some ⟨parentNodeName, outputIndex, runIndex⟩]⟩ := by
  rw [addNodeToBeExecuted]
  simp only [hnode, if_true, if_neg (Nat.not_lt.mpr hinputs)]

theorem enqueue_v1 (h : workflow.executionOrder = some .v1) (item : IExecuteData α) :
    (d.enqueue workflow item).nodeExecutionStack = item :: d.nodeExecutionStack := by
  simp [ExecutionData.enqueue, Workflow.isLegacyExecutionOrder, h]

theorem enqueue_legacy (h : workflow.executionOrder ≠ some .v1) (item : IExecuteData α) :
    (d.enqueue workflow item).nodeExecutionStack = d.nodeExecutionStack ++ [item] := by
  simp [ExecutionData.enqueue, Workflow.isLegacyExecutionOrder, h]

/-- The item that a complete entry becomes. -/
theorem startWaiting_stack {key : ℕ} : ∃ item : IExecuteData α, item.node = node ∧
    item.data = d.waitingExecution.main node key ∧
      (startWaiting workflow d node key).nodeExecutionStack =
        (d.enqueue workflow item).nodeExecutionStack :=
  ⟨⟨node, _, d.waitingExecutionSource.main node key⟩, rfl, rfl, rfl⟩

/-- A delivery that completes an entry. -/
theorem addNodeToBeExecuted_of_complete (h : workflow.executionOrder ≠ some .v1)
    (hinputs : 1 < workflow.numberOfInputs connectionData.node)
    (hall : (setAt (entryFor (workflow.numberOfInputs connectionData.node)
      (d.waitingExecution.entriesOf connectionData.node) connectionData.index) connectionData.index
        (nodeSuccessData.bind (·[outputIndex]?))).all Option.isSome = true) :
    ∃ item : IExecuteData α, item.data =
        setAt (entryFor (workflow.numberOfInputs connectionData.node)
          (d.waitingExecution.entriesOf connectionData.node) connectionData.index)
          connectionData.index (nodeSuccessData.bind (·[outputIndex]?)) ∧
      (addNodeToBeExecuted workflow emptyItem d connectionData outputIndex parentNodeName
        nodeSuccessData runIndex).nodeExecutionStack = d.nodeExecutionStack ++ [item] := by
  simp only [addNodeToBeExecuted, if_pos hinputs, main_addToWaiting, hall, if_true]
  obtain ⟨item, -, hitem, hstack⟩ := startWaiting_stack
  refine ⟨item, hitem.trans main_addToWaiting, hstack.trans ?_⟩
  rw [enqueue_legacy h, addToWaiting_nodeExecutionStack]

/-- Under `v1` a node that waits does not make other nodes start. -/
theorem startedBy_v1 (h : workflow.executionOrder = some .v1) :
    startedBy workflow emptyItem d connectionData outputIndex parentNodeName nodeSuccessData
      runIndex = [] := by
  have hnone : ∀ parent o r batch stackNodes input, parentToStart workflow emptyItem d.runData
      parent o r batch stackNodes input = none := by
    intro parent o r batch stackNodes input
    simp [parentToStart, Workflow.isLegacyExecutionOrder, h]
  rw [startedBy]
  simp only [parentsToStart, hnone, Option.toList_none, List.append_nil]
  split
  · exact List.foldl_fixed' (fun _ => rfl) _
  · rfl

theorem addNodeToBeExecuted_delivered :
    Delivered workflow d connectionData (nodeSuccessData.bind (·[outputIndex]?))
      (addNodeToBeExecuted workflow emptyItem d connectionData outputIndex parentNodeName
        nodeSuccessData runIndex) := by
  simp only [addNodeToBeExecuted]
  split_ifs with hinputs hall
  · exact .start hinputs _ hall
  · exact .keep hinputs _ _ startedBy_v1
  · exact .enqueue _ rfl (Nat.not_lt.mp hinputs)
  · exact .none

variable {batch : Option (List α)} {d' : ExecutionData α}

/-- Under `v1` a delivery puts items of its node on top, if any. -/
theorem Delivered.stack_v1 (hd : Delivered workflow d connectionData batch d')
    (h : workflow.executionOrder = some .v1) :
    ∃ front, d'.nodeExecutionStack = front ++ d.nodeExecutionStack ∧
      ∀ item ∈ front, item.node = connectionData.node := by
  cases hd with
  | start =>
    obtain ⟨item, hitem, -, hstack⟩ := startWaiting_stack
    refine ⟨[item], ?_, fun other hother => ?_⟩
    · rw [hstack, enqueue_v1 h, addToWaiting_nodeExecutionStack, List.singleton_append]
    · rw [List.mem_singleton.mp hother, hitem]
  | keep _ source started hstarted =>
    refine ⟨[], ?_, nofun⟩
    rw [hstarted h]
    exact addToWaiting_nodeExecutionStack batch source
  | enqueue item hitem =>
    refine ⟨[item], enqueue_v1 h _, fun other hother => ?_⟩
    rw [List.mem_singleton.mp hother, hitem]
  | none => exact ⟨[], rfl, nofun⟩

theorem foldl_enqueue_legacy (h : workflow.executionOrder ≠ some .v1)
    (items : List (IExecuteData α)) :
    d.nodeExecutionStack <+: (items.foldl (·.enqueue workflow ·) d).nodeExecutionStack := by
  induction items generalizing d with
  | nil => exact List.prefix_rfl
  | cons item items ih =>
    refine List.IsPrefix.trans ?_ (@ih (d.enqueue workflow item))
    rw [enqueue_legacy h]
    exact List.prefix_append _ _

/-- Under the legacy order a delivery leaves what is on top where it is. -/
theorem Delivered.stack_legacy (hd : Delivered workflow d connectionData batch d')
    (h : workflow.executionOrder ≠ some .v1) : d.nodeExecutionStack <+: d'.nodeExecutionStack := by
  cases hd with
  | start =>
    obtain ⟨item, -, -, hstack⟩ := startWaiting_stack
    rw [hstack, enqueue_legacy h, addToWaiting_nodeExecutionStack]
    exact List.prefix_append _ _
  | keep _ source started =>
    have hadded : (addToWaiting workflow d connectionData batch source).nodeExecutionStack =
        d.nodeExecutionStack := addToWaiting_nodeExecutionStack batch source
    exact hadded ▸ foldl_enqueue_legacy h started
  | enqueue item =>
    rw [enqueue_legacy h]
    exact List.prefix_append _ _
  | none => exact List.prefix_rfl

/-- A delivery changes the waiting entries of its node only. -/
theorem Delivered.entriesOf_of_ne (hd : Delivered workflow d connectionData batch d')
    (h : node ≠ connectionData.node) :
    d'.waitingExecution.entriesOf node = d.waitingExecution.entriesOf node := by
  cases hd with
  | start _ source =>
    refine (entriesOf_deleteEntry_of_ne h).trans ?_
    exact entriesOf_addToWaiting_of_ne batch source h
  | keep _ source started =>
    refine (entriesOf_setMain_of_ne h).trans ((entriesOf_setMain_of_ne h).trans ?_)
    rw [entriesOf_foldl_enqueue]
    exact entriesOf_addToWaiting_of_ne batch source h
  | enqueue => rfl
  | none => rfl

/-! ## A node that waits for another input -/

/-- The node is not on the stack, and none of its waiting entries has data at input 1. -/
structure Starved (node : String) (d : ExecutionData α) : Prop where
  entries : ∀ main ∈ (d.waitingExecution.entriesOf node).values, main[1]? = some none
  stack : ∀ item ∈ d.nodeExecutionStack, item.node ≠ node

theorem setAt_zero_get?_one {main : InputData α} (h : main[1]? = some none) :
    (setAt main 0 batch)[1]? = some none := by
  rw [setAt_of_lt]
  · simpa using h
  · exact Nat.zero_lt_of_lt (List.getElem?_eq_some_iff.mp h).1

/-- The entry that takes a batch for input 0 misses the data at input 1 all the same. -/
theorem entryFor_get?_one {entries : OrderedMap ℕ (InputData α)} {n : ℕ} (hn : 1 < n)
    (h : ∀ main ∈ entries.values, main[1]? = some none) :
    (entryFor n entries 0)[1]? = some none := by
  rw [entryFor]
  split
  · rename_i hfind
    obtain ⟨key, hkey⟩ := Option.isSome_iff_exists.mp hfind
    have hmem := List.mem_of_find?_eq_some hkey
    rw [List.mem_insertionSort] at hmem
    obtain ⟨main, hmain⟩ := OrderedMap.mem_keys.mp hmem
    rw [waitingNodeIndexFor, hkey, Option.getD_some, hmain, Option.getD_some]
    exact h main (OrderedMap.mem_values.mpr ⟨key, hmain⟩)
  · simp [hn]

/-- Deliveries to input 0 never complete an entry. -/
theorem Starved.delivered (hs : Starved node d) (hd : Delivered workflow d connectionData batch d')
    (h : workflow.executionOrder = some .v1) (hindex : connectionData.index = 0)
    (hinputs : 1 < workflow.numberOfInputs node) : Starved node d' := by
  by_cases hnode : node = connectionData.node
  · subst hnode
    obtain ⟨connected, index⟩ := connectionData
    obtain rfl : index = 0 := hindex
    have hentry := entryFor_get?_one hinputs hs.entries
    have hadded : ∀ source, (addToWaiting workflow d ⟨connected, 0⟩ batch source).waitingExecution.entriesOf
        connected = _ := fun source => entriesOf_addToWaiting
    cases hd with
    | start _ source hall =>
      -- an entry that misses data is not complete
      rw [IWaiting.main, hadded, OrderedMap.get?_set_self, Option.getD_some, List.all_eq_true] at hall
      have := hall none (List.mem_of_getElem? (setAt_zero_get?_one hentry))
      cases this
    | keep _ source started hstarted =>
      obtain rfl := hstarted h
      refine ⟨fun main hmain => ?_, fun item hitem => hs.stack item ?_⟩
      · rw [List.foldl_nil, entriesOf_keepWaiting (hadded source)] at hmain
        · rcases OrderedMap.mem_values_set hmain with rfl | hold
          · exact setAt_zero_get?_one hentry
          · exact hs.entries main hold
        · exact Nat.zero_lt_of_lt (List.getElem?_eq_some_iff.mp hentry).1
      · rw [← addToWaiting_nodeExecutionStack batch source]
        exact hitem
    | enqueue _ _ hle => exact absurd hinputs (Nat.not_lt.mpr hle)
    | none => exact hs
  · refine ⟨?_, fun item hitem => ?_⟩
    · rw [hd.entriesOf_of_ne hnode]
      exact hs.entries
    · obtain ⟨front, hstack, hfront⟩ := hd.stack_v1 h
      rw [hstack] at hitem
      rcases List.mem_append.mp hitem with hnew | hold
      · rw [hfront item hnew]
        exact Ne.symm hnode
      · exact hs.stack item hold

end Deliveries

/-! ## The deliveries of a request -/

section Request

variable {workflow : Workflow} {executionData : IExecuteData INodeExecutionData}
variable {taskMetadata : ITaskMetadata} {runIndex : ℕ} {action : EngineAction}
variable {actions : List EngineAction} {d : ExecutionData INodeExecutionData}
variable {nodes : List NodeToBeExecuted}

/-- The delivery runs the node of the action on the input of the call. -/
structure ForAction (action : EngineAction) (nodeData : NodeToBeExecuted) : Prop where
  connection : nodeData.inputConnectionData = ⟨action.nodeName, 0⟩
  output : nodeData.parentOutputIndex = 0
  input : ∃ input : INodeExecutionData, nodeData.parentOutputData = [some [input]] ∧
    input.json.get? "toolCallId" = some (.string action.id)

def Serves (action : EngineAction) (item : IExecuteData INodeExecutionData) : Prop :=
  item.node = action.nodeName ∧ ∃ input : INodeExecutionData, item.data = [some [input]] ∧
    input.json.get? "toolCallId" = some (.string action.id)

variable (executionData taskMetadata runIndex) in
theorem prepareRequestedNode_ok (runData : IRunData INodeExecutionData)
    (h : (workflow.nodes.get? action.nodeName).isSome) :
    ∃ nodeData subNode runData', prepareRequestedNode workflow executionData taskMetadata runIndex
      runData action = .ok (nodeData, subNode, runData') ∧ ForAction action nodeData := by
  obtain ⟨node, hnode⟩ := Option.isSome_iff_exists.mp h
  simp only [prepareRequestedNode, hnode]
  refine ⟨_, _, _, rfl, rfl, rfl, _, rfl, ?_⟩
  rw [toolInput, OrderedMap.get?_set_self]

variable (executionData taskMetadata runIndex) in
theorem prepareRequestedNodesForExecution_ok (runData : IRunData INodeExecutionData)
    (h : ∀ action ∈ actions, (workflow.nodes.get? action.nodeName).isSome) :
    ∃ nodes subNodes runData', prepareRequestedNodesForExecution workflow executionData taskMetadata
      runIndex runData actions = .ok (nodes, subNodes, runData') ∧
        List.Forall₂ ForAction actions nodes := by
  induction actions generalizing runData with
  | nil => exact ⟨[], [], runData, rfl, .nil⟩
  | cons action actions ih =>
    obtain ⟨nodeData, subNode, runData', hfirst, hfor⟩ :=
      prepareRequestedNode_ok executionData taskMetadata runIndex runData
        (h action List.mem_cons_self)
    obtain ⟨nodes, subNodes, runData'', hrest, hforall⟩ :=
      ih runData' fun a ha => h a (List.mem_cons_of_mem _ ha)
    refine ⟨nodeData :: nodes, subNode :: subNodes, runData'', ?_, .cons hfor hforall⟩
    simp only [prepareRequestedNodesForExecution, hfirst, hrest]

variable (taskMetadata runIndex d) in
/-- A request that is not ignored: the node is queued, then its tools. -/
theorem handleEngineRequest_ok {request : EngineRequest}
    (hparent : (requestParent executionData).isSome)
    (h : ∀ action ∈ request.actions, (workflow.nodes.get? action.nodeName).isSome) :
    ∃ self nodes runData', handleEngineRequest workflow executionData taskMetadata runIndex request d
        = .ok ((if workflow.executionOrder = some .v1 then nodes.reverse else nodes).foldl
          (deliver workflow) (deliver workflow { d with runData := runData' } self)) ∧
      self.inputConnectionData = ⟨executionData.node, 0⟩ ∧
      self.parentOutputIndex = 0 ∧ self.parentOutputData = executionData.data ∧
      List.Forall₂ ForAction request.actions nodes := by
  obtain ⟨parentNode, hparent⟩ := Option.isSome_iff_exists.mp hparent
  obtain ⟨nodes, subNodes, runData', hprepare, hforall⟩ :=
    prepareRequestedNodesForExecution_ok executionData taskMetadata runIndex d.runData h
  refine ⟨prepareRequestingNodeForResuming executionData taskMetadata runIndex
    ⟨subNodes, request.metadata⟩ parentNode, nodes, runData', ?_, rfl, rfl, rfl, hforall⟩
  simp only [handleEngineRequest, handleRequest, hprepare, hparent, List.foldl_cons]

theorem deliver_delivered (workflow : Workflow) (d : ExecutionData INodeExecutionData)
    (nodeData : NodeToBeExecuted) :
    ∃ batch, Delivered workflow d nodeData.inputConnectionData batch (deliver workflow d nodeData) :=
  ⟨_, addNodeToBeExecuted_delivered⟩

variable (d) in
/-- The item of a tool that waits for nothing else. -/
theorem deliver_serves {nodeData : NodeToBeExecuted} (hfor : ForAction action nodeData)
    (hnode : (workflow.nodes.get? action.nodeName).isSome)
    (hinputs : workflow.numberOfInputs action.nodeName ≤ 1) :
    ∃ item, deliver workflow d nodeData = d.enqueue workflow item ∧ Serves action item := by
  obtain ⟨hconnection, houtput, input, hinput, hid⟩ := hfor
  have hname : nodeData.inputConnectionData.node = action.nodeName := by rw [hconnection]
  rw [← hname] at hnode hinputs
  refine ⟨_, addNodeToBeExecuted_of_inputs hnode hinputs, hname, input, ?_, hid⟩
  rw [hconnection, houtput, hinput]
  rfl

/-- Under `v1` the tools end up on top, the first one first. -/
theorem foldl_deliver_v1 (h : workflow.executionOrder = some .v1)
    (hfor : List.Forall₂ ForAction actions nodes)
    (htools : ∀ action ∈ actions, (workflow.nodes.get? action.nodeName).isSome ∧
      workflow.numberOfInputs action.nodeName ≤ 1) :
    ∃ tools, (nodes.reverse.foldl (deliver workflow) d).nodeExecutionStack =
      tools ++ d.nodeExecutionStack ∧ List.Forall₂ Serves actions tools := by
  induction hfor with
  | nil => exact ⟨[], rfl, .nil⟩
  | @cons action nodeData actions nodes hfirst _ ih =>
    obtain ⟨tools, hstack, hserves⟩ := ih fun a ha => htools a (List.mem_cons_of_mem _ ha)
    obtain ⟨hnode, hinputs⟩ := htools action List.mem_cons_self
    obtain ⟨item, hdeliver, hitem⟩ :=
      deliver_serves (nodes.reverse.foldl (deliver workflow) d) hfirst hnode hinputs
    refine ⟨item :: tools, ?_, .cons hitem hserves⟩
    rw [List.reverse_cons, List.foldl_append, List.foldl_cons, List.foldl_nil, hdeliver,
      enqueue_v1 h, hstack, List.cons_append]

/-- Under the legacy order what is on top stays there. -/
theorem foldl_deliver_legacy (h : workflow.executionOrder ≠ some .v1) :
    d.nodeExecutionStack <+: (nodes.foldl (deliver workflow) d).nodeExecutionStack := by
  induction nodes generalizing d with
  | nil => exact List.prefix_rfl
  | cons nodeData nodes ih =>
    obtain ⟨batch, hd⟩ := deliver_delivered workflow d nodeData
    exact (hd.stack_legacy h).trans ih

theorem Starved.foldl {node : String} (hs : Starved node d)
    (h : workflow.executionOrder = some .v1)
    (hindex : ∀ nodeData ∈ nodes, nodeData.inputConnectionData.index = 0)
    (hinputs : 1 < workflow.numberOfInputs node) :
    Starved node (nodes.foldl (deliver workflow) d) := by
  induction nodes generalizing d with
  | nil => exact hs
  | cons nodeData nodes ih =>
    obtain ⟨batch, hd⟩ := deliver_delivered workflow d nodeData
    exact ih (hs.delivered hd h (hindex nodeData List.mem_cons_self) hinputs)
      fun n hn => hindex n (List.mem_cons_of_mem _ hn)

/-! ## A node that runs again before its tools -/

/-- Execution data under which the node runs as soon as it gets data at input 0. -/
def resumable (workflow : Workflow) (node : String) : ExecutionData INodeExecutionData where
  runData := .empty
  nodeExecutionStack := []
  waitingExecution := IWaiting.setMain .empty node 0
    (none :: List.replicate (workflow.numberOfInputs node - 1) (some []))
  waitingExecutionSource := .empty

theorem entryFor_resumable (node : String) :
    entryFor (workflow.numberOfInputs node) ((resumable workflow node).waitingExecution.entriesOf node)
      0 = none :: List.replicate (workflow.numberOfInputs node - 1) (some []) := by
  have hentries : (resumable workflow node).waitingExecution.entriesOf node =
      OrderedMap.empty.set 0 (none :: List.replicate (workflow.numberOfInputs node - 1) (some [])) :=
    entriesOf_setMain
  have hfind : findWaitingNodeIndex ((resumable workflow node).waitingExecution.entriesOf node) 0 =
      some 0 := by
    rw [hentries]
    rfl
  rw [entryFor, waitingNodeIndexFor, hfind, hentries]
  rfl

/-- The node is on the stack at once, with data that no call of a tool has. -/
theorem deliver_resumable {self : NodeToBeExecuted} {node : String}
    (h : workflow.executionOrder ≠ some .v1) (hnode : (workflow.nodes.get? node).isSome)
    (hconnection : self.inputConnectionData = ⟨node, 0⟩) (houtput : self.parentOutputIndex = 0)
    (hdata : self.parentOutputData = [some []]) (runData : IRunData INodeExecutionData) :
    ∃ item, (deliver workflow { resumable workflow node with runData := runData }
      self).nodeExecutionStack = [item] ∧ ∀ action, ¬ Serves action item := by
  have hfirst : ∀ item : IExecuteData INodeExecutionData, at? item.data 0 = some [] →
      ∀ action, ¬ Serves action item := by
    rintro item hitem action ⟨-, input, hinput, -⟩
    rw [hinput] at hitem
    cases hitem
  rw [deliver, hconnection, houtput, hdata]
  by_cases hinputs : workflow.numberOfInputs node ≤ 1
  · rw [addNodeToBeExecuted_of_inputs hnode hinputs, enqueue_legacy h]
    exact ⟨_, rfl, hfirst _ rfl⟩
  · -- the entry that waits for input 0 is complete with this batch
    have hentry := @entryFor_resumable workflow node
    obtain ⟨item, hitem, hstack⟩ := @addNodeToBeExecuted_of_complete _ workflow ⟨.empty, none⟩
      { resumable workflow node with runData := runData } ⟨node, 0⟩ 0 self.runIndex self.parentNode
      (some [[]]) h (Nat.not_le.mp hinputs) (by
        show (setAt (entryFor (workflow.numberOfInputs node)
          ((resumable workflow node).waitingExecution.entriesOf node) 0) 0 (some [])).all _ = true
        rw [hentry]
        simp [setAt])
    refine ⟨item, hstack, hfirst item ?_⟩
    rw [hitem]
    exact at?_setAt

end Request

/-! ## The tools run first -/

/-- The items queued for the request are those of the tools in their order and then those of the
node, at either end of the stack; and the stack is popped in its order. -/
def PopsToolsFirst (actions : List EngineAction) (node : String)
    (stack stack' : List (IExecuteData INodeExecutionData)) : Prop :=
  ∃ front back tools resumed, stack' = front ++ stack ++ back ∧ front ++ back = tools ++ resumed ∧
    List.Forall₂ Serves actions tools ∧ (∀ item ∈ resumed, item.node = node) ∧
      ∀ ops, popped stack' ops <+: stack'

/-- Whatever data the node has and whatever is on the stack, the tools of a request that is not
ignored are popped first. -/
def ToolsFirst (workflow : Workflow) (node : String) (request : EngineRequest) : Prop :=
  ∀ executionData taskMetadata runIndex d, executionData.node = node →
    (requestParent executionData).isSome →
      ∃ d', handleEngineRequest workflow executionData taskMetadata runIndex request d = .ok d' ∧
        PopsToolsFirst request.actions node d.nodeExecutionStack d'.nodeExecutionStack

section ToolsFirst

variable {workflow : Workflow} {node : String} {request : EngineRequest}
variable {actions : List EngineAction} {stack : List (IExecuteData INodeExecutionData)}
variable {item : IExecuteData INodeExecutionData} {action : EngineAction}

theorem exists_of_forall₂ {α β : Type} {r : α → β → Prop} {as : List α} {bs : List β} {b : β}
    (h : List.Forall₂ r as bs) (hb : b ∈ bs) : ∃ a ∈ as, r a b := by
  induction h with
  | nil => cases hb
  | cons hr _ ih =>
    rcases List.mem_cons.mp hb with rfl | hb
    · exact ⟨_, List.mem_cons_self, hr⟩
    · obtain ⟨a, ha, hr⟩ := ih hb
      exact ⟨a, List.mem_cons_of_mem _ ha, hr⟩

theorem PopsToolsFirst.serves_head (h : PopsToolsFirst actions node [] (item :: stack))
    (hactions : actions ≠ []) : ∃ action, Serves action item := by
  obtain ⟨front, back, tools, resumed, hstack, hqueued, hserves, -⟩ := h
  rw [List.append_nil, hqueued] at hstack
  cases hserves with
  | nil => exact absurd rfl hactions
  | @cons action tool _ _ hserve _ =>
    obtain ⟨rfl, -⟩ := List.cons.inj hstack
    exact ⟨action, hserve⟩

theorem PopsToolsFirst.exists_serves (h : PopsToolsFirst actions node [] stack)
    (haction : action ∈ actions) : ∃ item ∈ stack, Serves action item := by
  obtain ⟨front, back, tools, resumed, hstack, hqueued, hserves, -⟩ := h
  rw [List.append_nil, hqueued] at hstack
  obtain ⟨item, hitem, hserve⟩ := exists_of_forall₂ hserves.flip haction
  exact ⟨item, hstack ▸ List.mem_append_left _ hitem, hserve⟩

theorem toolsFirst_of_v1 (h : workflow.executionOrder = some .v1)
    (htools : ∀ action ∈ request.actions, (workflow.nodes.get? action.nodeName).isSome ∧
      workflow.numberOfInputs action.nodeName ≤ 1) : ToolsFirst workflow node request := by
  rintro executionData taskMetadata runIndex d rfl hparent
  obtain ⟨self, nodes, runData, hresult, hconnection, -, -, hfor⟩ :=
    handleEngineRequest_ok taskMetadata runIndex d hparent
      fun action haction => (htools action haction).1
  rw [if_pos h] at hresult
  refine ⟨_, hresult, ?_⟩
  -- the node goes on top of the stack, and then its tools on top of it
  obtain ⟨tools, htop, hserves⟩ := foldl_deliver_v1
    (d := deliver workflow { d with runData := runData } self) h hfor htools
  obtain ⟨batch, hself⟩ := deliver_delivered workflow { d with runData := runData } self
  obtain ⟨resumed, hstack, hresumed⟩ := hself.stack_v1 h
  refine ⟨tools ++ resumed, [], tools, resumed, ?_, by simp, hserves, ?_, popped_in_order _⟩
  · rw [htop, hstack, List.append_nil, List.append_assoc]
  · intro item hitem
    rw [hresumed item hitem, hconnection]

def emptyBatch (node : String) : IExecuteData INodeExecutionData :=
  ⟨node, [some []], [some ⟨"Trigger", 0, 0⟩]⟩

def noMetadata : ITaskMetadata := ⟨false, none, false, none⟩

/-- Under the legacy order the node is on the stack before its tools. -/
theorem ToolsFirst.executionOrder (hfirst : ToolsFirst workflow node request)
    (hactions : request.actions ≠ []) (hnode : (workflow.nodes.get? node).isSome)
    (hknown : ∀ action ∈ request.actions, (workflow.nodes.get? action.nodeName).isSome) :
    workflow.executionOrder = some .v1 := by
  by_contra h
  obtain ⟨self, nodes, runData, hresult, hconnection, houtput, hdata, -⟩ :=
    @handleEngineRequest_ok workflow (emptyBatch node) noMetadata 0 (resumable workflow node)
      request rfl hknown
  obtain ⟨d', hd', hpops⟩ := hfirst (emptyBatch node) noMetadata 0 (resumable workflow node) rfl rfl
  rw [if_neg h, hd', Except.ok.injEq] at hresult
  obtain ⟨item, hself, hserves⟩ := deliver_resumable h hnode hconnection houtput hdata runData
  obtain ⟨rest, hrest⟩ : [item] <+: d'.nodeExecutionStack := by
    rw [hresult, ← hself]
    exact foldl_deliver_legacy h
  rw [← hrest] at hpops
  obtain ⟨action, hserve⟩ := PopsToolsFirst.serves_head hpops hactions
  exact hserves action hserve

/-- A tool with several inputs waits for the others. -/
theorem ToolsFirst.numberOfInputs (hfirst : ToolsFirst workflow node request)
    (hknown : ∀ action ∈ request.actions, (workflow.nodes.get? action.nodeName).isSome)
    (h : workflow.executionOrder = some .v1)
    (haction : action ∈ request.actions) : workflow.numberOfInputs action.nodeName ≤ 1 := by
  by_contra hinputs
  set d : ExecutionData INodeExecutionData := ⟨.empty, [], .empty, .empty⟩ with hd
  obtain ⟨self, nodes, runData, hresult, hconnection, -, -, hfor⟩ :=
    @handleEngineRequest_ok workflow (emptyBatch node) noMetadata 0 d request rfl hknown
  obtain ⟨d', hd', hpops⟩ := hfirst (emptyBatch node) noMetadata 0 d rfl rfl
  rw [if_pos h, hd', Except.ok.injEq] at hresult
  have hstart : Starved action.nodeName { d with runData := runData } := ⟨nofun, nofun⟩
  obtain ⟨batch, hself⟩ := deliver_delivered workflow { d with runData := runData } self
  have hstarved := hstart.delivered hself h (by rw [hconnection]) (Nat.not_le.mp hinputs)
  -- no delivery brings data to another input than the first one
  have hindex : ∀ nodeData ∈ nodes.reverse, nodeData.inputConnectionData.index = 0 := by
    intro nodeData hmem
    obtain ⟨a, -, hforAction⟩ := exists_of_forall₂ hfor (List.mem_reverse.mp hmem)
    rw [hforAction.connection]
  have hend := hstarved.foldl h hindex (Nat.not_le.mp hinputs)
  rw [← hresult] at hend
  obtain ⟨item, hitem, hserve⟩ := hpops.exists_serves haction
  exact hend.stack item hitem hserve.1

end ToolsFirst

/-! ## An agent with two tools -/

/-- An agent with two tools, none of which has a main input. -/
def agentWorkflow (executionOrder : ExecutionOrder) : Workflow where
  nodes := ((OrderedMap.empty.set "Agent" ⟨"Agent", 1, none⟩).set "A" ⟨"A", 0, none⟩).set "B"
    ⟨"B", 0, none⟩
  connectionsBySourceNode := OrderedMap.empty.set "Trigger" [[⟨"Agent", 0⟩]]
  executionOrder := some executionOrder

def twoCalls : EngineRequest where
  actions := [⟨"A", .empty, "ai_tool", "1", ⟨none, none⟩⟩, ⟨"B", .empty, "ai_tool", "2", ⟨none, none⟩⟩]
  metadata := .empty

end N8n.WorkflowExecute
