import N8n.WorkflowExecute.Workflow

/-!
# Waiting nodes

What `WorkflowExecute` does with the output of a node: each batch of items is delivered to an input
of a connected node, and a node with several inputs waits in `waitingExecution` until it has data at
every input, or until nothing else is left to run and it is released without.

## Main definitions

* `ExecutionData`: the execution stack, the waiting entries and the results so far
* `addNodeToBeExecuted`: the delivery of one batch
* `releaseWaiting`: the release of a waiting node when the stack is empty

## Main results

* `releaseWaiting_succ`: the release ends
-/

namespace N8n.WorkflowExecute

open OrderedMap

variable {α : Type}

/-! ## Execution data -/

structure ISourceData where
  previousNode : String
  previousNodeOutput : ℕ
  previousNodeRun : ℕ

/-- For each input of a node a batch of items, or `null`. -/
abbrev InputData (α : Type) := List (Option (List α))

/-- What is at an index of an array, where `null` and `undefined` are both nothing. -/
def at? {β : Type} (main : List (Option β)) (i : ℕ) : Option β := main[i]?.join

/-- Assign to an index of an array, which grows if it has to. -/
def setAt {β : Type} (main : List (Option β)) (i : ℕ) (value : Option β) : List (Option β) :=
  (main ++ List.replicate (i + 1 - main.length) none).set i value

section Arrays

variable {β : Type} {main : List (Option β)} {i j : ℕ} {value : Option β}

theorem setAt_of_lt (h : i < main.length) : setAt main i value = main.set i value := by
  unfold setAt
  rw [Nat.sub_eq_zero_of_le h, List.replicate_zero, List.append_nil]

theorem at?_setAt : at? (setAt main i value) j = if j = i then value else at? main j := by
  have hlen : i < (main ++ List.replicate (i + 1 - main.length) none).length := by
    simp only [List.length_append, List.length_replicate]
    omega
  unfold at? setAt
  rw [List.getElem?_set]
  split_ifs with h h' h'
  · rfl
  · exact absurd h.symm h'
  · exact absurd h'.symm h
  · rcases lt_or_ge j main.length with hj | hj
    · rw [List.getElem?_append_left hj]
    · -- the places an array grows by hold nothing
      rw [List.getElem?_append_right hj, List.getElem?_eq_none hj, List.getElem?_replicate]
      split_ifs <;> rfl

@[simp] theorem at?_nil : at? ([] : List (Option β)) i = none := rfl

@[simp] theorem at?_replicate {n : ℕ} : at? (List.replicate n (none : Option β)) i = none := by
  unfold at?
  rw [List.getElem?_replicate]
  split_ifs <;> rfl

end Arrays

/-- An item of the execution stack: a node and the data to run it on. -/
structure IExecuteData (α : Type) where
  node : String
  data : InputData α
  source : List (Option ISourceData)

/-- The outputs of every run of every node that has run. -/
abbrev IRunData (α : Type) := OrderedMap String (List (List (List α)))

/-- The waiting entries of the nodes, under their keys. -/
abbrev IWaiting (β : Type) := OrderedMap String (OrderedMap ℕ (List (Option β)))

structure ExecutionData (α : Type) where
  runData : IRunData α
  nodeExecutionStack : List (IExecuteData α)
  waitingExecution : IWaiting (List α)
  waitingExecutionSource : IWaiting ISourceData

namespace IWaiting

variable {β : Type} (waiting : IWaiting β) (node : String) (key : ℕ)

def entriesOf : OrderedMap ℕ (List (Option β)) := (waiting.get? node).getD .empty

def main : List (Option β) := ((entriesOf waiting node).get? key).getD []

def setMain (value : List (Option β)) : IWaiting β :=
  waiting.set node ((entriesOf waiting node).set key value)

def deleteEntry : IWaiting β :=
  let entries := (entriesOf waiting node).delete key
  if entries.size = 0 then waiting.delete node else waiting.set node entries

end IWaiting

namespace ExecutionData

variable (d : ExecutionData α)

def enqueue (workflow : Workflow) (item : IExecuteData α) : ExecutionData α where
  runData := d.runData
  nodeExecutionStack :=
    if workflow.isLegacyExecutionOrder then d.nodeExecutionStack ++ [item]
    else item :: d.nodeExecutionStack
  waitingExecution := d.waitingExecution
  waitingExecutionSource := d.waitingExecutionSource

def prepareWaitingToExecution (nodeName : String) (numberOfConnections runIndex : ℕ) :
    ExecutionData α :=
  { d with
    waitingExecution :=
      d.waitingExecution.setMain nodeName runIndex (List.replicate numberOfConnections none)
    waitingExecutionSource :=
      d.waitingExecutionSource.setMain nodeName runIndex (List.replicate numberOfConnections none) }

end ExecutionData

/-- None of the connections brings an item in this run. -/
def incomingConnectionIsEmpty (runData : IRunData α) (inputConnections : List IConnection)
    (runIndex : ℕ) : Bool :=
  inputConnections.all fun connection =>
    match (((runData.get? connection.node).getD [])[runIndex]?).bind (·[connection.index]?) with
    | none => true
    | some items => items.isEmpty

/-! ## Starting parents -/

section Parents

variable (workflow : Workflow) (emptyItem : α) (runData : IRunData α)

/-- The parent to add for an input: the first node of the way there that can start. -/
def findNodeToAdd (checkOutputNodes executionStackNodes : List String) (inputNode : String) :
    List String → Option String → Option String
  | [], nodeToAdd => nodeToAdd
  | parentNode :: parentNodes, nodeToAdd =>
    if inputNode ≠ parentNode ∧ parentNode ∈ checkOutputNodes then none
    else if parentNode ∈ executionStackNodes then none
    else if (runData.get? parentNode).isSome then nodeToAdd
    else findNodeToAdd checkOutputNodes executionStackNodes inputNode parentNodes (some parentNode)

/-- The stack item that makes the source of one input run, if it would not run otherwise. -/
def parentToStart (parentNodeName : String) (outputIndex runIndex : ℕ) (batch : List α)
    (executionStackNodes : List String) (inputNode : String) : Option (IExecuteData α) :=
  let checkOutputNodes :=
    (((workflow.connectionsBySourceNode.get? parentNodeName).getD []).flatten).map IConnection.node
  let firstInputIsEmpty node :=
    incomingConnectionIsEmpty runData ((workflow.inputs node)[0]?.getD []) runIndex
  if inputNode = parentNodeName then none
  else if inputNode ∈ checkOutputNodes ∧ firstInputIsEmpty inputNode = false then none
  else if inputNode ∈ executionStackNodes then none
  else if (runData.get? inputNode).isSome then none
  else if workflow.isLegacyExecutionOrder = false then none
  else
    let parentNodes := (workflow.getParentNodes inputNode ++ [inputNode]).reverse
    match findNodeToAdd runData checkOutputNodes executionStackNodes inputNode parentNodes
        (some inputNode) with
    | none => none
    | some nodeToAdd =>
      if parentNodeName ∈ workflow.getParentNodes nodeToAdd ∧ batch = [] then none
      else if (workflow.connectionsByDestinationNode.get? nodeToAdd).isNone ||
          firstInputIsEmpty nodeToAdd then
        some ⟨nodeToAdd, [some [emptyItem]], [some ⟨parentNodeName, outputIndex, runIndex⟩]⟩
      else none

/-- The stack items added when a node waits for the first time. -/
def parentsToStart (node parentNodeName : String) (outputIndex runIndex : ℕ) (batch : List α)
    (stack : List (IExecuteData α)) : List (IExecuteData α) :=
  ((workflow.inputs node).flatten).foldl (fun added inputData =>
    let executionStackNodes := (stack ++ added).map IExecuteData.node
    added ++ (parentToStart workflow emptyItem runData parentNodeName outputIndex runIndex batch
      executionStackNodes inputData.node).toList) []

end Parents

/-! ## Delivering a batch -/

section Deliver

variable (workflow : Workflow) (emptyItem : α)

def findWaitingNodeIndex (entries : OrderedMap ℕ (InputData α)) (input : ℕ) : Option ℕ :=
  (entries.keys.insertionSort (· ≤ ·)).find? fun key =>
    (at? ((entries.get? key).getD []) input).isNone

/-- The key of the entry that takes the batch: one without data for the input, or a new one under
the number of entries. -/
def waitingNodeIndexFor (entries : OrderedMap ℕ (InputData α)) (input : ℕ) : ℕ :=
  (findWaitingNodeIndex entries input).getD entries.size

/-- The entry that takes the batch, with the batch added. -/
def addToWaiting (d : ExecutionData α) (connectionData : IConnection) (batch : Option (List α))
    (source : Option ISourceData) : ExecutionData α :=
  let node := connectionData.node
  let input := connectionData.index
  let entries := d.waitingExecution.entriesOf node
  let waitingNodeIndex := waitingNodeIndexFor entries input
  let d := if (d.waitingExecution.get? node).isSome then d
    else { d with
      waitingExecution := d.waitingExecution.set node .empty
      waitingExecutionSource := d.waitingExecutionSource.set node .empty }
  let d := if (findWaitingNodeIndex entries input).isSome then d
    else d.prepareWaitingToExecution node (workflow.numberOfInputs node) waitingNodeIndex
  { d with
    waitingExecution := d.waitingExecution.setMain node waitingNodeIndex
      (setAt (d.waitingExecution.main node waitingNodeIndex) input batch)
    waitingExecutionSource := d.waitingExecutionSource.setMain node waitingNodeIndex
      (setAt (d.waitingExecutionSource.main node waitingNodeIndex) input source) }

/-- Take an entry with all its data to the stack. -/
def startWaiting (d : ExecutionData α) (node : String) (waitingNodeIndex : ℕ) : ExecutionData α :=
  let d := d.enqueue workflow ⟨node, d.waitingExecution.main node waitingNodeIndex,
    d.waitingExecutionSource.main node waitingNodeIndex⟩
  { d with
    waitingExecution := d.waitingExecution.deleteEntry node waitingNodeIndex
    waitingExecutionSource := d.waitingExecutionSource.deleteEntry node waitingNodeIndex }

/-- Write an entry that still misses data once more. -/
def keepWaiting (d : ExecutionData α) (connectionData : IConnection) (waitingNodeIndex : ℕ)
    (batch : Option (List α)) : ExecutionData α :=
  let node := connectionData.node
  let connectionDataArray :=
    setAt (d.waitingExecution.main node waitingNodeIndex) connectionData.index batch
  let waitingExecutionSource := d.waitingExecutionSource.main node waitingNodeIndex
  let d := d.prepareWaitingToExecution node (workflow.numberOfInputs node) waitingNodeIndex
  { d with
    waitingExecution := d.waitingExecution.setMain node waitingNodeIndex connectionDataArray
    waitingExecutionSource :=
      d.waitingExecutionSource.setMain node waitingNodeIndex waitingExecutionSource }

/-- The stack items that a delivery adds besides the batch. -/
def startedBy (d : ExecutionData α) (connectionData : IConnection) (outputIndex : ℕ)
    (parentNodeName : String) (nodeSuccessData : Option (List (List α))) (runIndex : ℕ) :
    List (IExecuteData α) :=
  let node := connectionData.node
  let batch := nodeSuccessData.bind (·[outputIndex]?)
  let source := nodeSuccessData.map fun _ => ISourceData.mk parentNodeName outputIndex runIndex
  let added := addToWaiting workflow d connectionData batch source
  let waitingNodeIndex := waitingNodeIndexFor (d.waitingExecution.entriesOf node) connectionData.index
  if 1 < workflow.numberOfInputs node ∧ (d.waitingExecution.get? node).isNone ∧
      (added.waitingExecution.main node waitingNodeIndex).all Option.isSome = false then
    parentsToStart workflow emptyItem d.runData node parentNodeName outputIndex runIndex
      (batch.getD []) d.nodeExecutionStack
  else []

def addNodeToBeExecuted (d : ExecutionData α) (connectionData : IConnection) (outputIndex : ℕ)
    (parentNodeName : String) (nodeSuccessData : Option (List (List α))) (runIndex : ℕ) :
    ExecutionData α :=
  let node := connectionData.node
  let batch := nodeSuccessData.bind (·[outputIndex]?)
  if 1 < workflow.numberOfInputs node then
    let source := nodeSuccessData.map fun _ => ISourceData.mk parentNodeName outputIndex runIndex
    let waitingNodeIndex :=
      waitingNodeIndexFor (d.waitingExecution.entriesOf node) connectionData.index
    let added := addToWaiting workflow d connectionData batch source
    if (added.waitingExecution.main node waitingNodeIndex).all Option.isSome then
      startWaiting workflow added node waitingNodeIndex
    else
      let started := startedBy workflow emptyItem d connectionData outputIndex parentNodeName
        nodeSuccessData runIndex
      keepWaiting workflow (started.foldl (·.enqueue workflow ·) added) connectionData
        waitingNodeIndex batch
  else if (workflow.nodes.get? node).isSome then
    d.enqueue workflow ⟨node, setAt [] connectionData.index batch,
      [some ⟨parentNodeName, outputIndex, runIndex⟩]⟩
  else d

end Deliver

/-! ## The entries of a node -/

section Entries

variable {workflow : Workflow} {d : ExecutionData α} {connectionData : IConnection}
variable {main : InputData α} {batch b : Option (List α)} {source : Option ISourceData}
variable {n node : String} {input key : ℕ} {waiting : IWaiting (List α)}
  {entries : OrderedMap ℕ (InputData α)}

theorem entriesOf_open (waiting : IWaiting (List α)) (node : String) :
    (if (waiting.get? node).isSome then waiting else waiting.set node .empty).entriesOf n =
      waiting.entriesOf n := by
  split_ifs with h
  · rfl
  · have hnone : waiting.get? node = none := by simpa using h
    unfold IWaiting.entriesOf
    rw [get?_set]
    split_ifs with hn
    · simp [hn, hnone]
    · rfl

theorem findWaitingNodeIndex_free {input : ℕ} (h : findWaitingNodeIndex entries input = some key) :
    at? ((entries.get? key).getD []) input = none := by
  simpa using List.find?_some h

theorem addToWaiting_waitingExecution :
    let waiting := d.waitingExecution
    let entries := waiting.entriesOf connectionData.node
    let key := waitingNodeIndexFor entries connectionData.index
    let opened := if (waiting.get? connectionData.node).isSome then waiting
      else waiting.set connectionData.node .empty
    let prepared := if (findWaitingNodeIndex entries connectionData.index).isSome then opened
      else opened.setMain connectionData.node key
        (List.replicate (workflow.numberOfInputs connectionData.node) none)
    (addToWaiting workflow d connectionData b source).waitingExecution =
      prepared.setMain connectionData.node key
        (setAt (prepared.main connectionData.node key) connectionData.index b) := by
  unfold addToWaiting
  dsimp only
  split_ifs <;> rfl

theorem entriesOf_setMain :
    (waiting.setMain node key main).entriesOf node = (waiting.entriesOf node).set key main := by
  unfold IWaiting.setMain
  rw [IWaiting.entriesOf, get?_set_self, Option.getD_some]

theorem entriesOf_setMain_of_ne (h : n ≠ node) :
    (waiting.setMain node key main).entriesOf n = waiting.entriesOf n := by
  unfold IWaiting.setMain IWaiting.entriesOf
  rw [get?_set_of_ne h]

theorem entriesOf_deleteEntry_of_ne (h : n ≠ node) :
    (waiting.deleteEntry node key).entriesOf n = waiting.entriesOf n := by
  unfold IWaiting.deleteEntry IWaiting.entriesOf
  dsimp only
  split_ifs
  · rw [get?_delete_of_ne h]
  · rw [get?_set_of_ne h]

theorem entriesOf_deleteEntry :
    (waiting.deleteEntry node key).entriesOf node = (waiting.entriesOf node).delete key := by
  unfold IWaiting.deleteEntry
  dsimp only
  split_ifs with hempty
  · rw [IWaiting.entriesOf, get?_delete_self, Option.getD_none]
    exact eq_of_entries (List.length_eq_zero_iff.mp hempty).symm
  · rw [IWaiting.entriesOf, get?_set_self, Option.getD_some]

/-- The entry to which a batch is added: one without data for the input, or a new one. -/
def entryFor (numberOfInputs : ℕ) (entries : OrderedMap ℕ (InputData α)) (input : ℕ) :
    InputData α :=
  if (findWaitingNodeIndex entries input).isSome then
    (entries.get? (waitingNodeIndexFor entries input)).getD []
  else List.replicate numberOfInputs none

theorem lt_length_entryFor {n : ℕ} (hinput : input < n)
    (hslots : ∀ main ∈ entries.values, main.length = n) :
    input < (entryFor n entries input).length := by
  unfold entryFor
  split_ifs with hfind
  · obtain ⟨key, hkey⟩ := Option.isSome_iff_exists.mp hfind
    have hmem := List.mem_of_find?_eq_some hkey
    rw [List.mem_insertionSort] at hmem
    obtain ⟨main, hmain⟩ := mem_keys.mp hmem
    rw [waitingNodeIndexFor, hkey, Option.getD_some, hmain, Option.getD_some,
      hslots main (mem_values.mpr ⟨key, hmain⟩)]
    exact hinput
  · rwa [List.length_replicate]

theorem entriesOf_addToWaiting :
    let entries := d.waitingExecution.entriesOf connectionData.node
    let key := waitingNodeIndexFor entries connectionData.index
    let main := entryFor (workflow.numberOfInputs connectionData.node) entries connectionData.index
    (addToWaiting workflow d connectionData batch source).waitingExecution.entriesOf
        connectionData.node = entries.set key (setAt main connectionData.index batch) := by
  dsimp only
  rw [addToWaiting_waitingExecution, entriesOf_setMain]
  have hopened := @entriesOf_open _ connectionData.node d.waitingExecution
    connectionData.node
  unfold IWaiting.main entryFor
  by_cases hfind : (findWaitingNodeIndex (d.waitingExecution.entriesOf connectionData.node)
    connectionData.index).isSome = true
  · rw [if_pos hfind, if_pos hfind, hopened]
  · rw [if_neg hfind, if_neg hfind, entriesOf_setMain, set_set, get?_set_self,
      Option.getD_some, hopened]

theorem main_addToWaiting : (addToWaiting workflow d connectionData batch source).waitingExecution.main
      connectionData.node (waitingNodeIndexFor (d.waitingExecution.entriesOf connectionData.node)
        connectionData.index) =
    setAt (entryFor (workflow.numberOfInputs connectionData.node)
      (d.waitingExecution.entriesOf connectionData.node) connectionData.index) connectionData.index
        batch := by
  rw [IWaiting.main, entriesOf_addToWaiting, get?_set_self, Option.getD_some]

theorem entriesOf_foldl_enqueue (items : List (IExecuteData α)) :
    (items.foldl (·.enqueue workflow ·) d).waitingExecution = d.waitingExecution := by
  induction items generalizing d with
  | nil => rfl
  | cons item items ih => exact ih

/-- Writing an entry once more, with the batch that it has, changes nothing. -/
theorem entriesOf_keepWaiting
    (h : d.waitingExecution.entriesOf connectionData.node =
      entries.set key (setAt main connectionData.index batch))
    (hinput : connectionData.index < main.length) :
    (keepWaiting workflow d connectionData key batch).waitingExecution.entriesOf
        connectionData.node =
      entries.set key (setAt main connectionData.index batch) := by
  have hsame : setAt (d.waitingExecution.main connectionData.node key) connectionData.index batch =
      setAt main connectionData.index batch := by
    unfold IWaiting.main
    rw [h, get?_set_self, Option.getD_some, setAt_of_lt hinput, setAt_of_lt,
      List.set_set]
    rwa [List.length_set]
  unfold keepWaiting
  dsimp only
  rw [hsame, entriesOf_setMain]
  unfold ExecutionData.prepareWaitingToExecution
  rw [entriesOf_setMain, h, set_set, set_set]

variable (batch source) in
/-- The entries of the other nodes stay as they are. -/
theorem entriesOf_addToWaiting_of_ne (h : n ≠ connectionData.node) :
    (addToWaiting workflow d connectionData batch source).waitingExecution.entriesOf n =
      d.waitingExecution.entriesOf n := by
  rw [addToWaiting_waitingExecution, entriesOf_setMain_of_ne h]
  split_ifs
  · rfl
  · rw [← entriesOf_open d.waitingExecution connectionData.node]
    simp [*]
  · rw [entriesOf_setMain_of_ne h]
  · rw [entriesOf_setMain_of_ne h, ← entriesOf_open d.waitingExecution connectionData.node]
    simp [*]

variable (batch source) in
@[simp] theorem addToWaiting_nodeExecutionStack :
    (addToWaiting workflow d connectionData batch source).nodeExecutionStack =
      d.nodeExecutionStack := by
  unfold addToWaiting
  dsimp only
  split_ifs <;> rfl

end Entries

/-! ## Releasing a waiting node -/

section Release

variable (workflow : Workflow)

/-- The entry of a waiting node to release, with its data, if the node may run without the rest. -/
def releaseCandidate (d : ExecutionData α) (waitingNodes : List String) (nodeName : String) :
    Option (ℕ × List (List α)) := do
  let checkNode ← workflow.nodes.get? nodeName
  let requiredInputs :=
    if workflow.isLegacyExecutionOrder then none else checkNode.requiredInputs
  let requiresAll : Bool := match requiredInputs with
    | none => false
    | some (.amount n) => n = checkNode.inputsLength
    | some (.indexes inputs) => inputs.length = checkNode.inputsLength
  guard (!requiresAll)
  guard (!(workflow.getParentNodes nodeName).any (· ∈ waitingNodes))
  let entries := d.waitingExecution.entriesOf nodeName
  -- the keys are compared as strings
  let firstRunIndex ←
    (entries.keys.insertionSort fun a b => toString a ≤ toString b).head?
  let main ← entries.get? firstRunIndex
  let inputsWithData := (List.range main.length).filter fun i => (at? main i).isSome
  let hasRequired : Bool := match requiredInputs with
    | none => true
    | some (.amount n) => n ≤ inputsWithData.length
    | some (.indexes inputs) => inputs.all (· ∈ inputsWithData)
  guard hasRequired
  let taskDataMain := main.map fun data => data.getD []
  pure (firstRunIndex, taskDataMain)

/-- Release waiting entries until one with items is found. Each round removes one entry, and `fuel`
bounds the rounds. -/
def releaseWaiting : ℕ → ExecutionData α → ExecutionData α
  | 0, d => d
  | fuel + 1, d =>
    let waitingNodes := objectKeys d.waitingExecution.keys
    match waitingNodes.findSome? fun nodeName =>
        (releaseCandidate workflow d waitingNodes nodeName).map (nodeName, ·) with
    | none => d
    | some (nodeName, firstRunIndex, taskDataMain) =>
      let inputsLength := ((workflow.nodes.get? nodeName).map INode.inputsLength).getD 0
      let hasItems := taskDataMain.any (!·.isEmpty)
      let padded := taskDataMain ++ List.replicate (inputsLength - taskDataMain.length) []
      let removed := { d with
        waitingExecution := d.waitingExecution.deleteEntry nodeName firstRunIndex
        waitingExecutionSource := d.waitingExecutionSource.deleteEntry nodeName firstRunIndex }
      if hasItems then
        { removed with
          nodeExecutionStack := d.nodeExecutionStack ++ [⟨nodeName, padded.map some,
            d.waitingExecutionSource.main nodeName firstRunIndex⟩] }
      else releaseWaiting fuel removed

def ExecutionData.waitingEntries (d : ExecutionData α) : ℕ :=
  d.waitingExecution.total fun _ entries => entries.size

/-- The release after a node has run: waiting nodes are looked at once the stack is empty. -/
def ExecutionData.release (d : ExecutionData α) : ExecutionData α :=
  if d.nodeExecutionStack = [] then releaseWaiting workflow (d.waitingEntries + 1) d else d

/-! ## The release ends -/

variable {workflow} {d : ExecutionData α} {node : String} {key : ℕ}

theorem releaseCandidate_eq_some {waitingNodes : List String} {taskDataMain : List (List α)}
    (h : releaseCandidate workflow d waitingNodes node = some (key, taskDataMain)) :
    ∃ main, (d.waitingExecution.entriesOf node).get? key = some main ∧
      taskDataMain = main.map fun data => data.getD [] := by
  unfold releaseCandidate at h
  simp only [Option.bind_eq_bind, Option.bind_eq_some_iff, Option.pure_def, Option.some.injEq,
    Prod.mk.injEq] at h
  obtain ⟨_, -, _, -, _, -, _, -, main, hmain, _, -, rfl, rfl⟩ := h
  exact ⟨main, hmain, rfl⟩

theorem total_deleteEntry {main : InputData α}
    (h : (d.waitingExecution.entriesOf node).get? key = some main) :
    (d.waitingExecution.deleteEntry node key).total (fun _ entries => entries.size) + 1 =
      d.waitingExecution.total fun _ entries => entries.size := by
  obtain ⟨entries, hentries⟩ : ∃ entries, d.waitingExecution.get? node = some entries := by
    rw [← Option.ne_none_iff_exists']
    intro hnone
    simp [IWaiting.entriesOf, hnone] at h
  have hof : d.waitingExecution.entriesOf node = entries := by simp [IWaiting.entriesOf, hentries]
  rw [hof] at h
  have hsize : (entries.delete key).size + 1 = entries.size := by
    have := @OrderedMap.total_delete _ _ _ entries key _ _ fun _ _ => 1
    simpa [h, total, size] using this
  unfold IWaiting.deleteEntry
  rw [hof]
  dsimp only
  split_ifs with hempty
  · have := @OrderedMap.total_delete _ _ _ d.waitingExecution node _ _ fun _ entries => entries.size
    simp only [hentries, Option.elim_some] at this
    omega
  · have := @OrderedMap.total_set _ _ _ d.waitingExecution node (entries.delete key) _ _
      fun _ entries => entries.size
    simp only [hentries, Option.elim_some] at this
    omega

/-- **The release ends**: more rounds than there are waiting entries change nothing. -/
theorem releaseWaiting_succ {fuel : ℕ} (h : d.waitingEntries < fuel) :
    releaseWaiting workflow (fuel + 1) d = releaseWaiting workflow fuel d := by
  induction fuel generalizing d with
  | zero => cases h
  | succ fuel ih =>
    rw [releaseWaiting, releaseWaiting]
    split
    · rfl
    · rename_i nodeName firstRunIndex taskDataMain hfind
      obtain ⟨name, -, hname⟩ := List.exists_of_findSome?_eq_some hfind
      obtain ⟨⟨k, task⟩, hcandidate, he⟩ := Option.map_eq_some_iff.mp hname
      obtain ⟨rfl, rfl, rfl⟩ : name = nodeName ∧ k = firstRunIndex ∧ task = taskDataMain := by
        simpa using he
      obtain ⟨main, hmain, -⟩ := releaseCandidate_eq_some hcandidate
      have hless := total_deleteEntry hmain
      unfold ExecutionData.waitingEntries at h
      dsimp only
      rw [ih]
      unfold ExecutionData.waitingEntries
      dsimp only
      omega

/-- One entry waits. -/
theorem releaseWaiting_succ_one : ∃ d : ExecutionData ℕ, d.waitingEntries = 1 ∧
    ∀ workflow, releaseWaiting workflow 3 d = releaseWaiting workflow 2 d :=
  ⟨⟨.empty, [], .setMain .empty "m" 0 [some [7], none], .empty⟩, rfl, fun _ =>
    releaseWaiting_succ (by decide)⟩

end Release

end N8n.WorkflowExecute
