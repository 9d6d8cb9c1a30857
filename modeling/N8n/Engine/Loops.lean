import N8n.Engine.Components
import N8n.Foundations.OrderedSet

/-!
# Loops and graph validation

A loop is derived from the marked back-edges: its entry is the node they return to, its members
are the entry's strongly connected component. `validateExecutableGraph` is the one place that
decides whether the engine is willing to run a graph.

## Main definitions

* `WorkflowLoop`, `deriveLoops`: the loops of a graph
* `validateLoops`, `validateExecutableGraph`: the structural rules, with the error each one raises

## Main results

* `mem_deriveLoops`: the loops are those of the back-edge targets
* `checks_ok_iff` and the lemmas around it: a check passes exactly if no item is rejected
-/

namespace N8n.Engine

structure WorkflowLoop where
  batchNodeId : String
  memberIds : List String
  backEdges : List GraphEdge
  entryEdges : List GraphEdge
  exitEdges : List GraphEdge
  deriving DecidableEq

/-- The loop entered at `batchNodeId`, given its component. -/
def loopAt (graph : WorkflowGraph) (batchNodeId : String) (memberIds : List String) :
    WorkflowLoop where
  batchNodeId
  memberIds
  backEdges := graph.edges.filter fun e => e.isBackEdge ∧ e.to = batchNodeId
  entryEdges := graph.edges.filter fun e =>
    ¬ e.isBackEdge ∧ e.to = batchNodeId ∧ e.from ∉ memberIds
  exitEdges := graph.edges.filter fun e =>
    ¬ e.isBackEdge ∧ e.from ∈ memberIds ∧ e.to ∉ memberIds

/-- One loop per back-edge target, members from the full graph's components. -/
def deriveLoops (graph : WorkflowGraph) : List WorkflowLoop :=
  let backEdgeTargets := ((graph.edges.filter fun e => e.isBackEdge).map GraphEdge.to).eraseDups
  if backEdgeTargets = [] then []
  else
    let sccByNode := computeSccMembership graph graph.edges
    backEdgeTargets.map fun batchNodeId =>
      loopAt graph batchNodeId ((membersOf sccByNode batchNodeId).getD [batchNodeId])

def isCyclic (members : List String) (edges : List GraphEdge) : Bool :=
  match members with
  | [] => false
  | [only] => edges.any fun edge => edge.from = only ∧ edge.to = only
  | _ :: _ :: _ => true

/-! ## Validation -/

inductive GraphError
  | graphValidation (message : String)
  | unimplemented (message : String)

/-- Raise `error` if the item is rejected. -/
def rejectIf (rejected : Prop) [Decidable rejected] (error : GraphError) : Except GraphError Unit :=
  if rejected then .error error else .ok ()

def checks {α : Type} (items : List α) (check : α → Except GraphError Unit) :
    Except GraphError Unit :=
  items.forM check

/-- How a slot index is shown in a message; a fraction is only ever shown by the check that
rejects it. -/
def showIndex (index : ℚ) : String :=
  if isInteger index then toString index.num else toString index.num ++ "/" ++ toString index.den

section Rules

variable (graph : WorkflowGraph)

def nodeName (id : String) : String :=
  ((graph.nodes.reverse.find? fun node => node.id = id).map GraphNode.name).getD id

def edgeText (edge : GraphEdge) : String :=
  nodeName graph edge.from ++ " -> " ++ nodeName graph edge.to

/-- No two nodes share an id; `seen` are the ids before. -/
def checkDistinctIds : List GraphNode → List String → Except GraphError Unit
  | [], _ => .ok ()
  | node :: nodes, seen => do
    rejectIf (node.id ∈ seen) (.graphValidation ("Two nodes share the id " ++ node.id))
    checkDistinctIds nodes (node.id :: seen)

def checkEndpoints : Except GraphError Unit :=
  checks graph.edges fun edge =>
    checks [edge.from, edge.to] fun endpoint =>
      rejectIf (endpoint ∉ graph.nodes.map GraphNode.id)
        (.graphValidation ("Edge " ++ edgeText graph edge ++ " references " ++ endpoint ++
          ", which is not a node in the graph"))

/-- Rule 1: with the back-edges removed, no component may still be cyclic. -/
def checkForwardAcyclic : Except GraphError Unit :=
  let forwardEdges := graph.edges.filter fun edge => ¬ edge.isBackEdge
  checks ((computeSccMembership graph forwardEdges).map Prod.snd).eraseDups fun members =>
    rejectIf (isCyclic members forwardEdges)
      (.graphValidation ("Nodes " ++ ", ".intercalate (members.map (nodeName graph)) ++
        " form a cycle with no back-edge to close it, so none of them can ever become runnable"))

def batchNodeIds : List String :=
  (graph.nodes.filter fun node => node.type = .batch).map GraphNode.id

def triggerNodeIds : List String :=
  (graph.nodes.filter fun node => node.type = .trigger).map GraphNode.id

/-- Rule 3, the "none" case, over batch nodes. -/
def checkBatchNodesLoop : Except GraphError Unit :=
  checks (batchNodeIds graph) fun batchNodeId =>
    rejectIf (batchNodeId ∉ (deriveLoops graph).map WorkflowLoop.batchNodeId)
      (.graphValidation ("Batch node " ++ nodeName graph batchNodeId ++
        " has no back-edge returning to it, so its loop could never advance"))

variable (loop : WorkflowLoop)

def checkHead : Except GraphError Unit := do
  rejectIf (loop.batchNodeId ∉ batchNodeIds graph)
    (.graphValidation ("Node " ++ nodeName graph loop.batchNodeId ++
      " has a back-edge returning to it but is not a batch node"))
  rejectIf (¬ isBatchStepConfig
      ((graph.nodes.find? fun node => node.id = loop.batchNodeId).bind GraphNode.config))
    (.graphValidation ("Batch node " ++ nodeName graph loop.batchNodeId ++
      " has no batch size, and it must be a whole number of at least 1"))

def checkMembers : Except GraphError Unit := do
  checks loop.memberIds fun memberId =>
    rejectIf (memberId ∈ triggerNodeIds graph)
      (.graphValidation ("Trigger " ++ nodeName graph memberId ++ " is inside the loop of " ++
        nodeName graph loop.batchNodeId ++ ", so that loop could never start"))
  checks loop.memberIds fun memberId =>
    rejectIf (memberId ≠ loop.batchNodeId ∧ memberId ∈ batchNodeIds graph)
      (.unimplemented ("Batch node " ++ nodeName graph memberId ++ " sits inside the loop of " ++
        nodeName graph loop.batchNodeId ++ "; nested loops are not supported yet"))

/-- Rule 2's slot and direction, and rule 3's "several" case. -/
def checkBackEdges : Except GraphError Unit := do
  checks loop.backEdges fun edge => do
    rejectIf (edge.inputIndex ≠ 0)
      (.graphValidation ("Back-edge " ++ edgeText graph edge ++ " feeds input slot " ++
        showIndex edge.inputIndex ++ "; returns feed the batch node's slot 0"))
    rejectIf (edge.from ∉ loop.memberIds)
      (.graphValidation ("Back-edge " ++ edgeText graph edge ++ " returns from outside the loop"))
  rejectIf (1 < loop.backEdges.length)
    (.unimplemented ("Batch node " ++ nodeName graph loop.batchNodeId ++ " has " ++
      toString loop.backEdges.length ++
      " back-edges; multiple returns converge on one input slot, which is not supported yet"))

/-- Rule 4: the batch node's own slots, and its single entry edge. -/
def checkBatchSlots : Except GraphError Unit := do
  checks graph.edges fun edge => do
    rejectIf (edge.to = loop.batchNodeId ∧ ¬ edge.isBackEdge ∧ edge.inputIndex ≠ 0)
      (.graphValidation ("Edge " ++ edgeText graph edge ++ " feeds input slot " ++
        showIndex edge.inputIndex ++ " of a batch node, which has only slot 0"))
    rejectIf (edge.from = loop.batchNodeId ∧ edge.outputIndex ≠ 0 ∧ edge.outputIndex ≠ 1)
      (.graphValidation ("Edge " ++ edgeText graph edge ++ " leaves output slot " ++
        showIndex edge.outputIndex ++ " of a batch node, which has only done (0) and loop (1)"))
  rejectIf (1 < loop.entryEdges.length)
    (.unimplemented ("Batch node " ++ nodeName graph loop.batchNodeId ++ " has " ++
      toString loop.entryEdges.length ++
      " entry edges; converging entries on its input slot is not supported yet"))

/-- Rule 5: the batch node is the only way in and, from its done slot, the only way out. -/
def checkBoundary : Except GraphError Unit := do
  checks loop.exitEdges fun edge => do
    rejectIf (edge.from ≠ loop.batchNodeId)
      (.unimplemented ("Edge " ++ edgeText graph edge ++ " leaves the loop of " ++
        nodeName graph loop.batchNodeId ++
        " mid-body; dangling body branches are not supported yet"))
    rejectIf (edge.outputIndex ≠ 0)
      (.graphValidation ("Edge " ++ edgeText graph edge ++
        " leaves the loop from the loop slot; only the done slot (0) exits"))
  checks graph.edges fun edge => do
    rejectIf (edge.from = loop.batchNodeId ∧ edge.outputIndex = 0 ∧ edge.to ∈ loop.memberIds)
      (.graphValidation ("Done slot of " ++ nodeName graph loop.batchNodeId ++ " feeds " ++
        nodeName graph edge.to ++
        ", a member of its own loop; a node cannot run both per iteration and after the loop"))
    rejectIf (¬ edge.isBackEdge ∧ edge.to ∈ loop.memberIds ∧ edge.to ≠ loop.batchNodeId ∧
        edge.from ∉ loop.memberIds)
      (.graphValidation ("Edge " ++ edgeText graph edge ++ " enters the loop of " ++
        nodeName graph loop.batchNodeId ++ " mid-body; the batch node is the only way in"))

end Rules

/-- The structural rules for loop shapes. -/
def validateLoops (graph : WorkflowGraph) : Except GraphError Unit := do
  checkDistinctIds graph.nodes []
  checkEndpoints graph
  checkForwardAcyclic graph
  checkBatchNodesLoop graph
  checks (deriveLoops graph) fun loop => do
    checkHead graph loop
    checkMembers graph loop
    checkBackEdges graph loop
    checkBatchSlots graph loop
    checkBoundary graph loop

def maxSlotIndex : ℚ := 100

def reachableFrom (graph : WorkflowGraph) (triggerId : String) : List String :=
  triggerId :: getDescendantNodeIds graph triggerId

/-- No two forward edges feed one input slot; `seen` are the slots before. -/
def checkInputSlots : List GraphEdge → List (String × ℚ) → Except GraphError Unit
  | [], _ => .ok ()
  | edge :: edges, seen =>
    if edge.isBackEdge then checkInputSlots edges seen
    else do
      rejectIf ((edge.to, edge.inputIndex) ∈ seen)
        (.unimplemented ("Node " ++ edge.to ++ " has more than one edge into input slot " ++
          showIndex edge.inputIndex ++
          "; converging branches on one slot is not supported yet"))
      checkInputSlots edges ((edge.to, edge.inputIndex) :: seen)

def checkSlotIndices (graph : WorkflowGraph) : Except GraphError Unit :=
  checks graph.edges fun edge =>
    checks [edge.outputIndex, edge.inputIndex] fun index => do
      rejectIf (¬ isInteger index ∨ index < 0)
        (.graphValidation ("Edge " ++ edge.from ++ " -> " ++ edge.to ++ " has slot index " ++
          showIndex index ++ "; slot indices are non-negative integers"))
      rejectIf (maxSlotIndex < index)
        (.graphValidation ("Edge " ++ edge.from ++ " -> " ++ edge.to ++ " has slot index " ++
          showIndex index ++ "; slot indices above " ++ showIndex maxSlotIndex ++
          " are not supported yet"))

/-- Asserts the graph is one the engine is willing to execute. -/
def validateExecutableGraph (graph : WorkflowGraph) : Except GraphError Unit :=
  match graph.nodes.filter fun node => node.type = .trigger with
  | [] => .error (.graphValidation "Graph has no trigger node to start from")
  | _ :: _ :: _ => .error (.graphValidation "Graph must have exactly one trigger node")
  | [trigger] => do
    validateLoops graph
    checks graph.edges fun edge =>
      rejectIf (edge.to ∈ reachableFrom graph trigger.id ∧
          edge.from ∉ reachableFrom graph trigger.id)
        (.graphValidation ("Edge " ++ edge.from ++ " -> " ++ edge.to ++
          " feeds a node the trigger reaches from one it cannot reach, so " ++ edge.to ++
          " would wait on " ++ edge.from ++ " forever"))
    checkSlotIndices graph
    checkInputSlots graph.edges []

/-! ## What an accepted check says -/

@[simp] theorem rejectIf_ok {rejected : Prop} [Decidable rejected] {error : GraphError} :
    rejectIf rejected error = .ok () ↔ ¬ rejected := by
  unfold rejectIf
  split_ifs with h <;> simp [h]

/-- Two checks in a row pass exactly if both do. -/
@[simp] theorem bind_ok {first second : Except GraphError Unit} :
    (first >>= fun _ => second) = .ok () ↔ first = .ok () ∧ second = .ok () := by
  cases first <;> simp [bind, Except.bind]

/-- A list of checks passes exactly if every check does. -/
@[simp] theorem checks_ok_iff {α : Type} {items : List α} {check : α → Except GraphError Unit} :
    checks items check = .ok () ↔ ∀ item ∈ items, check item = .ok () := by
  induction items with
  | nil => simp [checks, pure, Except.pure]
  | cons item items ih =>
    rw [List.forall_mem_cons, ← ih, ← bind_ok]
    rfl

theorem checkDistinctIds_ok {nodes : List GraphNode} {seen : List String} :
    checkDistinctIds nodes seen = .ok () ↔
      (nodes.map GraphNode.id).Nodup ∧ ∀ node ∈ nodes, node.id ∉ seen := by
  induction nodes generalizing seen with
  | nil => simp [checkDistinctIds]
  | cons node nodes ih =>
    simp only [checkDistinctIds, bind_ok, rejectIf_ok, ih, List.map_cons, List.nodup_cons,
      List.mem_map, List.mem_cons, not_or, forall_eq_or_imp, not_exists, not_and]
    constructor
    · rintro ⟨hs, hd, hn⟩
      exact ⟨⟨fun n hn' => (hn n hn').1, hd⟩, hs, fun n hn' => (hn n hn').2⟩
    · rintro ⟨⟨hne, hd⟩, hs, hn⟩
      exact ⟨hs, hd, fun n hn' => ⟨hne n hn', hn n hn'⟩⟩

/-! ## The loops of a graph -/

section Derived

variable {graph : WorkflowGraph} {loop : WorkflowLoop}

/-- **The loops** are those entered at the back-edge targets. -/
theorem mem_deriveLoops :
    loop ∈ deriveLoops graph ↔ ∃ b, (∃ e ∈ graph.edges, e.isBackEdge ∧ e.to = b) ∧
      loop = loopAt graph b ((membersOf (computeSccMembership graph graph.edges) b).getD [b]) := by
  unfold deriveLoops
  simp only
  split_ifs with h
  · simp only [List.not_mem_nil, false_iff, not_exists, not_and]
    rintro b ⟨e, he, hb, rfl⟩
    have : e.to ∈ ((graph.edges.filter fun e => e.isBackEdge).map GraphEdge.to).eraseDups :=
      List.mem_eraseDups.mpr (List.mem_map_of_mem (List.mem_filter.mpr ⟨he, hb⟩))
    rw [h] at this
    exact absurd this List.not_mem_nil
  · simp only [List.mem_map, List.mem_eraseDups, List.mem_filter]
    constructor
    · rintro ⟨b, ⟨e, ⟨he, hb⟩, heb⟩, rfl⟩
      exact ⟨b, ⟨e, he, hb, heb⟩, rfl⟩
    · rintro ⟨b, ⟨e, he, hb, heb⟩, rfl⟩
      exact ⟨b, ⟨e, ⟨he, hb⟩, heb⟩, rfl⟩

theorem loop_eq (h : loop ∈ deriveLoops graph) :
    loop = loopAt graph loop.batchNodeId loop.memberIds := by
  obtain ⟨b, -, rfl⟩ := mem_deriveLoops.mp h
  rfl

theorem loop_eq_of_head {loop' : WorkflowLoop} (h : loop ∈ deriveLoops graph)
    (h' : loop' ∈ deriveLoops graph) (he : loop.batchNodeId = loop'.batchNodeId) :
    loop = loop' := by
  obtain ⟨b, -, rfl⟩ := mem_deriveLoops.mp h
  obtain ⟨b', -, rfl⟩ := mem_deriveLoops.mp h'
  obtain rfl : b = b' := he
  rfl

theorem nodup_deriveLoops (graph : WorkflowGraph) : (deriveLoops graph).Nodup := by
  unfold deriveLoops
  simp only
  split_ifs
  · exact List.nodup_nil
  · refine List.Nodup.map (fun b b' he => ?_) (OrderedSet.nodup_eraseDups _)
    exact congrArg WorkflowLoop.batchNodeId he

end Derived

end N8n.Engine
