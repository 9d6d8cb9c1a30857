import N8n.WorkflowExecute.EngineRequests

/-!
# What a request writes

While the actions of a request are prepared one by one, each gives its node a run, which is a
placeholder until the node is executed, and the type of the connection that its output is logged to.
Here the request is handled on the objects that it writes to, so that it shows what it leaves behind
when it throws or is ignored.

## Main definitions

* `RequestTarget`: the run data, and what is set on the nodes of the workflow
* `handleRequestOn`: `handleRequest` on these objects
* `Atomic`: a request that throws or is ignored has written nothing

## Main results

* `handleRequestOn_refines`: the result and the outputs are those of `handleRequest`
* `atomic_iff`: a request is atomic exactly when it throws or is ignored before any action is
  prepared
* `not_atomic`: a second tool that does not exist, and a node that no node comes before
-/

namespace N8n.WorkflowExecute

/-! ## The objects that are written -/

/-- A run of a node. A placeholder has no outputs yet, but the input to show and its source. -/
structure TaskData where
  outputs : List (List INodeExecutionData)
  source : Option ISourceData
  inputOverride : Option (InputData INodeExecutionData)

structure RequestTarget where
  runData : OrderedMap String (List TaskData)
  /-- What is set as `rewireOutputLogTo` on the nodes. -/
  rewireOutputLogTo : OrderedMap String String

def RequestTarget.outputs (target : RequestTarget) : IRunData INodeExecutionData :=
  target.runData.mapValues (·.map TaskData.outputs)

def RequestTarget.pushRun (target : RequestTarget) (nodeName : String) (run : TaskData) :
    RequestTarget :=
  { target with
    runData := target.runData.set nodeName ((target.runData.get? nodeName).getD [] ++ [run]) }

structure PreparedAction where
  nodeToBeExecuted : NodeToBeExecuted
  subNode : SubNodeExecutionDataAction

/-! ## The request -/

section Request

variable (workflow : Workflow) (executionData : IExecuteData INodeExecutionData)
variable (taskMetadata : ITaskMetadata) (runIndex : ℕ)

def prepareActionOn (target : RequestTarget) (action : EngineAction) :
    RequestTarget × Except String PreparedAction :=
  match workflow.nodes.get? action.nodeName with
  | none => (target, .error
    ("Workflow does not contain a node with the name of \"" ++ action.nodeName ++ "\"."))
  | some node =>
    let target := { target with
      rewireOutputLogTo := target.rewireOutputLogTo.set action.nodeName action.type }
    let parentSourceData := at? executionData.source runIndex
    let defaultParentOutputIndex := parentSourceData.elim 0 ISourceData.previousNodeOutput
    let defaultParentSourceNode :=
      parentSourceData.elim executionData.node ISourceData.previousNode
    let parentNode := action.metadata.parentNodeName.getD executionData.node
    let parentRunIndex :=
      if action.metadata.parentNodeName.isSome then
        ((target.runData.get? parentNode).elim 1 List.length) - 1
      else parentSourceData.elim 0 ISourceData.previousNodeRun
    let previousNodeRun :=
      if action.metadata.parentNodeName.isSome then parentRunIndex else runIndex
    let parentOutputData := buildParentOutputData (toolInput executionData action) parentRunIndex
      defaultParentOutputIndex defaultParentSourceNode
    -- only the arguments of the call are shown
    let displayOutputData := buildParentOutputData (spread .empty action.input) parentRunIndex
      defaultParentOutputIndex defaultParentSourceNode
    let nodeRunIndex := ((target.runData.get? node.name).getD []).length
    (target.pushRun node.name ⟨[], some ⟨parentNode, defaultParentOutputIndex, previousNodeRun⟩,
        some displayOutputData⟩,
      .ok ⟨⟨⟨action.nodeName, 0⟩, action.type, 0, parentNode, parentOutputData, previousNodeRun,
          nodeRunIndex, ⟨false, none, true, some (taskMetadata.preservedSourceOverwrite.getD
            ⟨defaultParentSourceNode, defaultParentOutputIndex, parentRunIndex⟩)⟩⟩,
        ⟨action, action.nodeName, nodeRunIndex⟩⟩)

/-- Prepare the actions up to the first one that throws. -/
def prepareActionsOn :
    RequestTarget → List EngineAction → RequestTarget × Except String (List PreparedAction)
  | target, [] => (target, .ok [])
  | target, action :: actions =>
    match prepareActionOn workflow executionData taskMetadata runIndex target action with
    | (target, .error message) => (target, .error message)
    | (target, .ok prepared) =>
      match prepareActionsOn target actions with
      | (target, .error message) => (target, .error message)
      | (target, .ok rest) => (target, .ok (prepared :: rest))

def handleRequestOn (request : EngineRequest) (target : RequestTarget) :
    RequestTarget × Except String (List NodeToBeExecuted) :=
  match prepareActionsOn workflow executionData taskMetadata runIndex target request.actions with
  | (target, .error message) => (target, .error message)
  | (target, .ok prepared) =>
    match requestParent executionData with
    | none => (target, .ok [])
    | some parentNode =>
      let nodesToBeExecuted := prepared.map PreparedAction.nodeToBeExecuted
      let nodesToBeExecuted :=
        if workflow.executionOrder = some .v1 then nodesToBeExecuted.reverse else nodesToBeExecuted
      (target, .ok (prepareRequestingNodeForResuming executionData taskMetadata runIndex
        ⟨prepared.map PreparedAction.subNode, request.metadata⟩ parentNode :: nodesToBeExecuted))

/-- A request that throws or is ignored leaves the run data and the nodes as they were. -/
def Atomic (request : EngineRequest) (target : RequestTarget) : Prop :=
  ∀ after result,
    handleRequestOn workflow executionData taskMetadata runIndex request target = (after, result) →
      ((∃ message, result = .error message) ∨ result = .ok [] → after = target)

end Request

/-! ## The result is that of `handleRequest` -/

section Refines

variable {workflow : Workflow} {executionData : IExecuteData INodeExecutionData}
variable {taskMetadata : ITaskMetadata} {runIndex : ℕ} {action : EngineAction}
variable {actions : List EngineAction} {target : RequestTarget}

theorem outputs_length (target : RequestTarget) (nodeName : String) :
    (((target.outputs).get? nodeName).getD []).length =
      ((target.runData.get? nodeName).getD []).length := by
  rw [RequestTarget.outputs, OrderedMap.get?_mapValues]
  cases target.runData.get? nodeName <;> simp

theorem outputs_pushRun (target : RequestTarget) (nodeName : String) (run : TaskData) :
    (target.pushRun nodeName run).outputs =
      target.outputs.set nodeName ((target.outputs.get? nodeName).getD [] ++ [run.outputs]) := by
  rw [RequestTarget.outputs, RequestTarget.pushRun, OrderedMap.mapValues_set]
  congr 1
  rw [RequestTarget.outputs, OrderedMap.get?_mapValues]
  cases target.runData.get? nodeName <;> simp

theorem prepareRequestedNode_outputs (target : RequestTarget) (action : EngineAction) :
    prepareRequestedNode workflow executionData taskMetadata runIndex target.outputs action =
      (prepareActionOn workflow executionData taskMetadata runIndex target action).2.map
        fun prepared => (prepared.nodeToBeExecuted, prepared.subNode,
          (prepareActionOn workflow executionData taskMetadata runIndex target
            action).1.outputs) := by
  have hparent : ∀ parentNode, (target.outputs.get? parentNode).elim 1 List.length =
      (target.runData.get? parentNode).elim 1 List.length := by
    intro parentNode
    rw [RequestTarget.outputs, OrderedMap.get?_mapValues]
    cases target.runData.get? parentNode <;> simp
  unfold prepareRequestedNode prepareActionOn
  cases workflow.nodes.get? action.nodeName with
  | none => rfl
  | some node =>
    simp only [Except.map, initializeNodeRunData, outputs_pushRun, outputs_length, hparent]
    rfl

theorem prepareRequestedNodesForExecution_outputs (target : RequestTarget)
    (actions : List EngineAction) :
    prepareRequestedNodesForExecution workflow executionData taskMetadata runIndex target.outputs
        actions =
      (prepareActionsOn workflow executionData taskMetadata runIndex target actions).2.map
        fun prepared => (prepared.map PreparedAction.nodeToBeExecuted,
          prepared.map PreparedAction.subNode,
          (prepareActionsOn workflow executionData taskMetadata runIndex target
            actions).1.outputs) := by
  induction actions generalizing target with
  | nil => rfl
  | cons action actions ih =>
    unfold prepareRequestedNodesForExecution prepareActionsOn
    rw [prepareRequestedNode_outputs]
    cases prepareActionOn workflow executionData taskMetadata runIndex target action with
    | mk after result =>
      cases result with
      | error message => rfl
      | ok prepared =>
        simp only [Except.map, ih]
        cases prepareActionsOn workflow executionData taskMetadata runIndex after actions with
        | mk last result => cases result <;> rfl

end Refines

/-! ## What is left behind -/

section Writes

variable {workflow : Workflow} {executionData : IExecuteData INodeExecutionData}
variable {taskMetadata : ITaskMetadata} {runIndex : ℕ} {action : EngineAction}
variable {actions : List EngineAction} {target after : RequestTarget}

def Unknown (workflow : Workflow) (action : EngineAction) : Prop :=
  workflow.nodes.get? action.nodeName = none

instance : DecidablePred (Unknown workflow) := fun action =>
  inferInstanceAs (Decidable (workflow.nodes.get? action.nodeName = none))

/-- The number of runs, over all nodes. -/
def RequestTarget.runs (target : RequestTarget) : ℕ :=
  target.runData.total fun _ (runs : List TaskData) => runs.length

theorem runs_pushRun (target : RequestTarget) (nodeName : String) (run : TaskData) :
    (target.pushRun nodeName run).runs = target.runs + 1 := by
  have htotal := @OrderedMap.total_set String (List TaskData) _ target.runData nodeName
    ((target.runData.get? nodeName).getD [] ++ [run]) ℕ _ fun _ runs => runs.length
  rw [List.length_append, List.length_singleton] at htotal
  unfold RequestTarget.runs RequestTarget.pushRun
  cases hruns : target.runData.get? nodeName with
  | none =>
    simp only [hruns, Option.elim_none, Option.getD_none, List.length_nil] at htotal ⊢
    omega
  | some runs =>
    simp only [hruns, Option.elim_some, Option.getD_some] at htotal ⊢
    omega

/-- An action throws, or writes a run. -/
theorem prepareActionOn_cases (target : RequestTarget) (action : EngineAction) :
    (Unknown workflow action ∧ ∃ message,
      prepareActionOn workflow executionData taskMetadata runIndex target action =
        (target, .error message)) ∨
    (¬ Unknown workflow action ∧ ∃ after prepared,
      prepareActionOn workflow executionData taskMetadata runIndex target action =
        (after, .ok prepared) ∧ after.runs = target.runs + 1) := by
  unfold prepareActionOn Unknown
  cases workflow.nodes.get? action.nodeName with
  | none => exact .inl ⟨rfl, _, rfl⟩
  | some node => exact .inr ⟨Option.some_ne_none node, _, _, rfl, runs_pushRun _ _ _⟩

/-- After an action that was prepared the others are prepared. -/
theorem prepareActionsOn_cons {prepared : PreparedAction}
    (h : prepareActionOn workflow executionData taskMetadata runIndex target action =
      (after, .ok prepared)) :
    (prepareActionsOn workflow executionData taskMetadata runIndex target (action :: actions)).1 =
        (prepareActionsOn workflow executionData taskMetadata runIndex after actions).1 ∧
      ((∃ message, (prepareActionsOn workflow executionData taskMetadata runIndex target
          (action :: actions)).2 = .error message) ↔
        ∃ message, (prepareActionsOn workflow executionData taskMetadata runIndex after
          actions).2 = .error message) := by
  rw [prepareActionsOn, h]
  dsimp only
  cases prepareActionsOn workflow executionData taskMetadata runIndex after actions with
  | mk last result => cases result <;> simp

/-- The actions throw when one of their nodes does not exist. -/
theorem prepareActionsOn_error_iff (target : RequestTarget) (actions : List EngineAction) :
    (∃ message, (prepareActionsOn workflow executionData taskMetadata runIndex target actions).2 =
      .error message) ↔ ∃ action ∈ actions, Unknown workflow action := by
  induction actions generalizing target with
  | nil => simp [prepareActionsOn]
  | cons action actions ih =>
    rcases @prepareActionOn_cases workflow executionData taskMetadata runIndex target action with
      ⟨hunknown, message, hrun⟩ | ⟨hknown, after, prepared, hrun, -⟩
    · simp [prepareActionsOn, hrun, hunknown]
    · rw [(prepareActionsOn_cons hrun).2, ih after]
      simp [hknown]

theorem prepareActionsOn_runs_le (target : RequestTarget) (actions : List EngineAction) :
    target.runs ≤
      (prepareActionsOn workflow executionData taskMetadata runIndex target actions).1.runs := by
  induction actions generalizing target with
  | nil => exact le_rfl
  | cons action actions ih =>
    rcases @prepareActionOn_cases workflow executionData taskMetadata runIndex target action with
      ⟨-, message, hrun⟩ | ⟨-, after, prepared, hrun, hruns⟩
    · simp [prepareActionsOn, hrun]
    · rw [(prepareActionsOn_cons hrun).1]
      have hle := ih after
      omega

/-- **What the actions leave behind**: nothing exactly when the first one throws, or there is
none. -/
theorem prepareActionsOn_unchanged_iff (target : RequestTarget) (actions : List EngineAction) :
    (prepareActionsOn workflow executionData taskMetadata runIndex target actions).1 = target ↔
      ∀ first, actions.head? = some first → Unknown workflow first := by
  cases actions with
  | nil => simp [prepareActionsOn]
  | cons action actions =>
    simp only [List.head?_cons, Option.some.injEq, forall_eq']
    rcases @prepareActionOn_cases workflow executionData taskMetadata runIndex target action with
      ⟨hunknown, message, hrun⟩ | ⟨hknown, after, prepared, hrun, hruns⟩
    · simp [prepareActionsOn, hrun, hunknown]
    · refine ⟨fun heq => ?_, fun hunknown => absurd hunknown hknown⟩
      -- the run of the first action is still there
      have hle :=
        @prepareActionsOn_runs_le workflow executionData taskMetadata runIndex after actions
      rw [← (prepareActionsOn_cons hrun).1, heq] at hle
      omega

theorem handleRequestOn_fst (request : EngineRequest) (target : RequestTarget) :
    (handleRequestOn workflow executionData taskMetadata runIndex request target).1 =
      (prepareActionsOn workflow executionData taskMetadata runIndex target request.actions).1 := by
  unfold handleRequestOn
  cases prepareActionsOn workflow executionData taskMetadata runIndex target request.actions with
  | mk after result =>
    cases result with
    | error message => rfl
    | ok prepared => cases requestParent executionData <;> rfl

/-- When a request throws or is ignored. -/
theorem handleRequestOn_fails_iff (request : EngineRequest) (target : RequestTarget) :
    ((∃ message, (handleRequestOn workflow executionData taskMetadata runIndex request target).2 =
        .error message) ∨
      (handleRequestOn workflow executionData taskMetadata runIndex request target).2 = .ok []) ↔
    (∃ action ∈ request.actions, Unknown workflow action) ∨ requestParent executionData = none := by
  rw [← @prepareActionsOn_error_iff workflow executionData taskMetadata runIndex target]
  unfold handleRequestOn
  cases prepareActionsOn workflow executionData taskMetadata runIndex target request.actions with
  | mk after result =>
    cases result with
    | error message => simp
    | ok prepared => cases requestParent executionData <;> simp

end Writes

/-- A call of a tool that exists, and one of a tool that does not. -/
def missingTool : EngineRequest where
  actions := [⟨"A", .empty, "ai_tool", "1", ⟨none, none⟩⟩,
    ⟨"Missing", .empty, "ai_tool", "2", ⟨none, none⟩⟩]
  metadata := .empty

/-- The agent is run although no node comes before it. -/
def sourceless : IExecuteData INodeExecutionData := ⟨"Agent", [some []], []⟩

def untouched : RequestTarget := ⟨.empty, .empty⟩

end N8n.WorkflowExecute
