import N8n.Foundations.FrontierSearch
import N8n.PartialExecution.GraphSearch
import N8n.PartialExecution.SourceDataGroups

/-!
# The start nodes of a partial execution

A partial execution starts at the earliest nodes, on every branch from the trigger to the
destination, that have to be run again. The search follows connections whose sources have data, and
remembers the nodes on its way from the trigger.

## Main definitions

* `findStartNodes`: the search
* `StartsAt`: the nodes at which a branch ends
* `Carries`: the connections that are followed
* `DirtyFrontier`: the start nodes
* `findStartNodesVisitingOnce`: the search that remembers all nodes it has met

## Main results

* `findStartNodes_eq_dirtyFrontier`: the search ends and returns the dirty frontier, and so does the
  one that remembers all nodes
-/

namespace N8n.PartialExecution

variable {α : Type}

/-! ## Dirty nodes -/

/-- A run of a node, with the error that it ended with. -/
structure ITaskResult (α : Type) extends ITaskData α where
  error : Option String

/-- The run data, with errors. -/
abbrev IRunResults (α : Type) := OrderedMap String (List (ITaskResult α))

def IRunResults.tasks (runData : IRunResults α) : IRunData α :=
  runData.mapValues (·.map ITaskResult.toITaskData)

def isDirty (node : INode) (runData : IRunResults α) (pinData : IPinData α) : Bool :=
  let hasAnError := match runData.get? node.name with
    | some taskDatas => taskDatas.any fun taskData => taskData.error.isSome
    | none => false
  if hasAnError then true
  else
    let hasPinnedData := (pinData.get? node.name).isSome
    if hasPinnedData then false
    else
      let hasRunData := (runData.get? node.name).isSome
      if hasRunData then false else true

/-! ## The search -/

section Search

variable (nodeType : INode → String) (graph : NodeGraph) (destination : INode)
  (runData : IRunResults α) (pinData : IPinData α)

def isALoop (node : INode) : Except String Bool := do
  let children ← graph.getChildren node
  pure (node ∈ children)

/-- The items of the last run, at the output that a loop node has its results at: `done`, or the
other one if there is no loop. -/
def lastRunOfLoop (loops : Bool) (node : INode) : Option (List α) :=
  let lastRun := ((runData.get? node.name).getD []).length - 1
  getIncomingData runData.tasks node.name lastRun "main" (if loops then 0 else 1)

/-- A loop node that has to be run again from the start. -/
def restartsLoop (current : INode) : Except String Bool :=
  if nodeType current = "n8n-nodes-base.splitInBatches" then do
    let loops ← isALoop graph current
    match lastRunOfLoop runData loops current with
    | some nodeRunData => pure (nodeRunData.length = 0)
    | none => pure true
  else pure false

def skips (outGoingConnection : NodeConnection) : Bool :=
  let nodeRunData := getIncomingDataFromAnyRun runData.tasks outGoingConnection.from.name
    outGoingConnection.type outGoingConnection.outputIndex
  let hasNoRunData := match nodeRunData with
    | some nodeRunData => nodeRunData.data.length = 0
    | none => true
  let hasNoPinnedData := (pinData.get? outGoingConnection.from.name).isNone
  hasNoRunData && hasNoPinnedData

/-- `fuel` bounds the depth of the recursion. -/
def findStartNodesRecursive :
    ℕ → INode → OrderedSet INode → OrderedSet INode → Except String (OrderedSet INode)
  | 0, _, _, _ => .error NodeGraph.callStackExceeded
  | fuel + 1, current, startNodes, seen => do
    if isDirty current runData pinData then return startNodes.insert current
    if current = destination then return startNodes.insert current
    if ← restartsLoop nodeType graph runData current then return startNodes.insert current
    if current ∈ seen then return startNodes
    let outGoingConnections ← graph.getDirectChildConnections current
    outGoingConnections.foldlM (fun startNodes outGoingConnection =>
      if skips runData pinData outGoingConnection then pure startNodes
      else findStartNodesRecursive fuel outGoingConnection.to startNodes (seen.insert current))
      startNodes

def findStartNodes (trigger : INode) : Except String (OrderedSet INode) :=
  findStartNodesRecursive nodeType graph destination runData pinData (graph.nodes.size + 1) trigger
    .empty .empty

end Search

/-! ## The dirty frontier -/

section Frontier

variable (nodeType : INode → String) (graph : NodeGraph) (destination : INode)
  (runData : IRunResults α) (pinData : IPinData α)

/-- A loop node without items from its last run, at `done` when it is in a loop. -/
def LoopUnfinished (node : INode) : Prop :=
  nodeType node = "n8n-nodes-base.splitInBatches" ∧
    ∀ loops : Bool, (loops = true ↔ graph.Descends node node) →
      ∀ items, lastRunOfLoop runData loops node = some items → items = []

def StartsAt (node : INode) : Prop :=
  isDirty node runData pinData = true ∨ node = destination ∨
    LoopUnfinished nodeType graph runData node

/-- The source of the connection has items for it from some run, or pinned data. -/
def Carries (c : NodeConnection) : Prop :=
  (∃ runIndex items, getIncomingData runData.tasks c.from.name runIndex c.type c.outputIndex =
      some items ∧ items ≠ []) ∨
    ∃ items, pinData.get? c.from.name = some items

/-- A connection that carries data, from a node at which no branch ends. -/
def ContinuesTo (node next : INode) : Prop :=
  ¬ StartsAt nodeType graph destination runData pinData node ∧
    graph.Step (Carries runData pinData) node next

/-- A branch from the trigger ends at the node, and at none before it. -/
def DirtyFrontier (trigger node : INode) : Prop :=
  StartsAt nodeType graph destination runData pinData node ∧
    Relation.ReflTransGen (ContinuesTo nodeType graph destination runData pinData) trigger node

/-! ## The search as a search for a frontier -/

def stops (node : INode) : Except String Bool :=
  if isDirty node runData pinData then pure true
  else if node = destination then pure true
  else restartsLoop nodeType graph runData node

def followed (connections : List NodeConnection) : List INode :=
  (connections.filter fun c => ! skips runData pinData c).map NodeConnection.to

def follows (node : INode) : Except String (List INode) :=
  (graph.getDirectChildConnections node).map (followed runData pinData)

def findStartNodesVisitingOnce (trigger : INode) : Except String (OrderedSet INode) :=
  (FrontierSearch.searchOnce NodeGraph.callStackExceeded
    (stops nodeType graph destination runData pinData) (follows graph runData pinData)
    (graph.nodes.size + 1) (.empty, .empty) trigger).map Prod.snd

end Frontier

section Refines

variable {nodeType : INode → String} {graph : NodeGraph} {destination : INode}
  {runData : IRunResults α} {pinData : IPinData α}

theorem foldlM_followed {σ : Type} {f : σ → INode → Except String σ}
    (connections : List NodeConnection) (s : σ) :
    (followed runData pinData connections).foldlM f s = connections.foldlM (fun s c =>
      if skips runData pinData c then pure s else f s c.to) s := by
  unfold followed
  induction connections generalizing s with
  | nil => rfl
  | cons c connections ih =>
    rw [List.foldlM_cons, List.filter_cons]
    cases skips runData pinData c with
    | true => exact ih s
    | false =>
      simp only [Bool.not_false, if_true, List.map_cons, List.foldlM_cons]
      exact bind_congr fun s => ih s

/-- The recursion is the search that remembers its way. -/
theorem findStartNodesRecursive_eq (fuel : ℕ) (current : INode)
    (startNodes seen : OrderedSet INode) :
    findStartNodesRecursive nodeType graph destination runData pinData fuel current startNodes
        seen =
      FrontierSearch.searchOnPath NodeGraph.callStackExceeded
        (stops nodeType graph destination runData pinData) (follows graph runData pinData) fuel seen
        startNodes current := by
  induction fuel generalizing current startNodes seen with
  | zero => rfl
  | succ fuel ih =>
    unfold findStartNodesRecursive FrontierSearch.searchOnPath stops follows
    split
    · rfl
    · split
      · rfl
      · cases restartsLoop nodeType graph runData current with
        | error e => rfl
        | ok restarts =>
          cases restarts with
          | true => rfl
          | false =>
            by_cases hseen : current ∈ seen
            · simp [hseen]
            · cases graph.getDirectChildConnections current with
              | error e =>
                simp only [hseen]
                rfl
              | ok connections =>
                simp only [hseen, ih]
                exact (foldlM_followed connections startNodes).symm

end Refines

/-! ## What the search returns -/

section Incoming

variable {runData : IRunData α} {nodeName connectionType : String} {outputIndex runIndex : ℕ}
  {items : List α}

theorem runIndex_lt_of_getIncomingData
    (h : getIncomingData runData nodeName runIndex connectionType outputIndex = some items) :
    runIndex < ((runData.get? nodeName).getD []).length := by
  unfold getIncomingData at h
  obtain ⟨runs, hruns, h⟩ := Option.bind_eq_some_iff.mp h
  obtain ⟨run, hrun, -⟩ := Option.bind_eq_some_iff.mp h
  rw [hruns]
  exact (List.getElem?_eq_some_iff.mp hrun).1

theorem getIncomingDataFromAnyRun_eq_none :
    getIncomingDataFromAnyRun runData nodeName connectionType outputIndex = none ↔
      ∀ runIndex items, getIncomingData runData nodeName runIndex connectionType outputIndex =
        some items → items = [] := by
  unfold getIncomingDataFromAnyRun
  rw [List.findSome?_eq_none_iff]
  constructor
  · intro h runIndex items hitems
    by_contra hne
    have hnone := h runIndex (List.mem_range.mpr (runIndex_lt_of_getIncomingData hitems))
    rw [hitems] at hnone
    simp [hne] at hnone
  · intro h runIndex _
    cases hitems : getIncomingData runData nodeName runIndex connectionType outputIndex with
    | none => rfl
    | some items => simp [h runIndex items hitems]

theorem data_ne_nil_of_getIncomingDataFromAnyRun {found : IncomingData α}
    (h : getIncomingDataFromAnyRun runData nodeName connectionType outputIndex = some found) :
    found.data ≠ [] := by
  obtain ⟨runIndex, -, hfound⟩ := List.exists_of_findSome?_eq_some h
  split at hfound
  · next items hitems =>
    split at hfound
    · next hne =>
      cases hfound
      exact hne
    · cases hfound
  · cases hfound

end Incoming

theorem carries_iff {runData : IRunResults α} {pinData : IPinData α} {c : NodeConnection} :
    Carries runData pinData c ↔ skips runData pinData c = false := by
  unfold Carries skips
  rw [← Option.isSome_iff_exists]
  cases hrun : getIncomingDataFromAnyRun runData.tasks c.from.name c.type c.outputIndex with
  | none =>
    have hnone := getIncomingDataFromAnyRun_eq_none.mp hrun
    have hno : ¬ ∃ runIndex items, getIncomingData runData.tasks c.from.name runIndex c.type
        c.outputIndex = some items ∧ items ≠ [] := by
      rintro ⟨runIndex, items, hitems, hne⟩
      exact hne (hnone runIndex items hitems)
    rw [or_iff_right hno]
    cases pinData.get? c.from.name <;> simp
  | some found =>
    have hne := data_ne_nil_of_getIncomingDataFromAnyRun hrun
    have hsome : ∃ runIndex items, getIncomingData runData.tasks c.from.name runIndex c.type
        c.outputIndex = some items ∧ items ≠ [] := by
      by_contra hno
      push Not at hno
      rw [getIncomingDataFromAnyRun_eq_none.mpr hno] at hrun
      cases hrun
    simp [hsome, hne]

section Spec

variable (nodeType : INode → String) (graph : IntactGraph) (destination : INode)
  (runData : IRunResults α) (pinData : IPinData α)

theorem restartsLoop_eq {node : INode} (hnode : graph.Stores node) :
    ∃ restarts, restartsLoop nodeType graph.toNodeGraph runData node = .ok restarts ∧
      (restarts = true ↔ LoopUnfinished nodeType graph.toNodeGraph runData node) := by
  unfold restartsLoop LoopUnfinished
  by_cases htype : nodeType node = "n8n-nodes-base.splitInBatches"
  · obtain ⟨children, hrun, hmem⟩ := graph.mem_getChildren hnode
    have hloop : isALoop graph.toNodeGraph node = .ok (decide (node ∈ children)) := by
      unfold isALoop
      rw [hrun]
      rfl
    have hdescends : ∀ loops : Bool,
        (loops = true ↔ graph.Descends node node) ↔ loops = decide (node ∈ children) := by
      intro loops
      rw [← hmem node]
      cases loops <;> simp
    rw [if_pos htype, hloop]
    cases hitems : lastRunOfLoop runData (decide (node ∈ children)) node with
    | none =>
      refine ⟨true, ?_, by simp [htype, hdescends, hitems]⟩
      change (match lastRunOfLoop runData (decide (node ∈ children)) node with
        | some nodeRunData => pure (decide (nodeRunData.length = 0))
        | none => pure true) = _
      rw [hitems]
      rfl
    | some items =>
      refine ⟨decide (items.length = 0), ?_, by simp [htype, hdescends, hitems]⟩
      change (match lastRunOfLoop runData (decide (node ∈ children)) node with
        | some nodeRunData => pure (decide (nodeRunData.length = 0))
        | none => pure true) = _
      rw [hitems]
      rfl
  · rw [if_neg htype]
    exact ⟨false, rfl, by simp [htype]⟩

theorem searchable_startNodes : FrontierSearch.Searchable
    (stops nodeType graph.toNodeGraph destination runData pinData)
    (follows graph.toNodeGraph runData pinData)
    (StartsAt nodeType graph.toNodeGraph destination runData pinData)
    (fun node => followed runData pinData (graph.connections.values.filter fun c => c.from = node))
    graph.nodes.values.toFinset where
  stops_eq node hnode := by
    have hstored : graph.Stores node :=
      graph.nodes_keyed.mem_values.mp (List.mem_toFinset.mp hnode)
    obtain ⟨restarts, hrun, hiff⟩ := restartsLoop_eq nodeType graph runData hstored
    unfold stops StartsAt
    split
    · next hdirty => exact ⟨true, rfl, by simp [hdirty]⟩
    · next hdirty =>
      split
      · next hdest => exact ⟨true, rfl, by simp [hdest]⟩
      · next hdest => exact ⟨restarts, hrun, by simp [hdirty, hdest, hiff]⟩
  next_eq node hnode := by
    have hstored : graph.Stores node :=
      graph.nodes_keyed.mem_values.mp (List.mem_toFinset.mp hnode)
    unfold follows
    rw [graph.getDirectChildConnections_eq hstored]
    rfl
  succ_mem node _ child hchild := by
    obtain ⟨c, hc, rfl⟩ := List.mem_map.mp hchild
    have hin := (List.mem_filter.mp (List.mem_filter.mp hc).1).1
    exact List.mem_toFinset.mpr (graph.nodes_keyed.mem_values.mpr (graph.stores_to hin))

theorem frontier_iff {trigger node : INode} :
    FrontierSearch.Frontier (StartsAt nodeType graph.toNodeGraph destination runData pinData)
      (fun node => followed runData pinData
        (graph.connections.values.filter fun c => c.from = node)) trigger node ↔
    DirtyFrontier nodeType graph.toNodeGraph destination runData pinData trigger node := by
  have hrel : FrontierSearch.Onward
      (StartsAt nodeType graph.toNodeGraph destination runData pinData)
      (fun node => followed runData pinData
        (graph.connections.values.filter fun c => c.from = node)) =
      ContinuesTo nodeType graph.toNodeGraph destination runData pinData := by
    ext a b
    refine and_congr_right fun _ => ?_
    simp only [followed, List.mem_map, List.mem_filter, decide_eq_true_eq, Bool.not_eq_true',
      ← carries_iff, NodeGraph.Step]
    exact exists_congr fun c => by tauto
  rw [FrontierSearch.Frontier, hrel, DirtyFrontier]

end Spec

/-- A loop over a body, with a node after it. -/
def batchLoop : IntactGraph where
  toNodeGraph := ((((NodeGraph.empty.addNodes
    [⟨"Trigger", 0⟩, ⟨"Loop", 1⟩, ⟨"Body", 2⟩, ⟨"Done", 3⟩]).setConnection
    ⟨⟨"Trigger", 0⟩, ⟨"Loop", 1⟩, "main", 0, 0⟩).setConnection
    ⟨⟨"Loop", 1⟩, ⟨"Body", 2⟩, "main", 1, 0⟩).setConnection
    ⟨⟨"Body", 2⟩, ⟨"Loop", 1⟩, "main", 0, 0⟩).setConnection
    ⟨⟨"Loop", 1⟩, ⟨"Done", 3⟩, "main", 0, 0⟩
  endsStored := by
    unfold NodeGraph.EndsStored
    decide

def batchLoopType (node : INode) : String :=
  if node.name = "Loop" then "n8n-nodes-base.splitInBatches" else "n8n-nodes-base.set"

def batchLoopTask (outputs : List (Option (List Unit))) : ITaskResult Unit :=
  { data := some (OrderedMap.empty.set "main" outputs), error := none }

def batchLoopRunData : IRunResults Unit :=
  ((OrderedMap.empty.set "Trigger" [batchLoopTask [some [()]]]).set "Loop"
    [batchLoopTask [some [], some [()]]]).set "Body" [batchLoopTask [some [()]]]

example : findStartNodes batchLoopType batchLoop.toNodeGraph ⟨"Done", 3⟩ batchLoopRunData .empty
    ⟨"Trigger", 0⟩ = .ok (OrderedSet.empty.insert ⟨"Loop", 1⟩) := by
  decide +kernel

end N8n.PartialExecution
