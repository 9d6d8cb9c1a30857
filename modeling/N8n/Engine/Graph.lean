import N8n.Common.JsonValue
import Mathlib.Logic.Relation
import Mathlib.Data.List.Nodup
import Mathlib.Data.List.Perm.Subperm

/-!
# Execution graphs

The graph of step nodes an execution runs, and the queries over its edges: the trigger, the direct
successors of a node and its descendants.

## Main definitions

* `GraphNode`, `GraphEdge`, `WorkflowGraph`: the graph
* `findTriggerNode`, `getSuccessorNodeIds`, `getDescendantNodeIds`: the queries
* `WorkflowGraph.Edge`: there is an edge between two node ids

## Main results

* `mem_getSuccessorNodeIds`: the successors are the targets of the edges that leave the node
* `mem_getDescendantNodeIds`: the descendants are the nodes reached along one or more edges
-/

namespace N8n.Engine

inductive StepType
  | trigger
  | v1Node
  | wait
  | subworkflow
  | batch
  deriving DecidableEq

structure GraphNode where
  id : String
  name : String
  type : StepType
  config : Option JsonValue

structure GraphEdge where
  «from» : String
  «to» : String
  outputIndex : ℚ
  inputIndex : ℚ
  isBackEdge : Bool
  deriving DecidableEq

structure WorkflowGraph where
  nodes : List GraphNode
  edges : List GraphEdge

/-- A batch node's configuration holds a whole batch size of at least 1. -/
def isBatchStepConfig (config : Option JsonValue) : Bool :=
  match config.bind (JsonValue.field "batchSize") with
  | some (.number batchSize) => isInteger batchSize && 1 ≤ batchSize
  | _ => false

/-! ## Queries -/

def findTriggerNode (graph : WorkflowGraph) : Option GraphNode :=
  graph.nodes.find? fun node => node.type = .trigger

def pushNew (ids : List String) (id : String) : List String :=
  if id ∈ ids then ids else ids ++ [id]

def getSuccessorNodeIds (graph : WorkflowGraph) (nodeId : String) : List String :=
  graph.edges.foldl
    (fun successors edge => if edge.from = nodeId then pushNew successors edge.to else successors) []

/-- The breadth-first loop: the queue doubles as the result and the index only moves forward.
`fuel` bounds the number of turns. -/
def expandDescendants (graph : WorkflowGraph) : ℕ → ℕ → List String → List String
  | 0, _, descendants => descendants
  | fuel + 1, i, descendants =>
    match descendants[i]? with
    | none => descendants
    | some id =>
      expandDescendants graph fuel (i + 1) ((getSuccessorNodeIds graph id).foldl pushNew descendants)

def getDescendantNodeIds (graph : WorkflowGraph) (nodeId : String) : List String :=
  expandDescendants graph (graph.edges.length + 1) 0 (getSuccessorNodeIds graph nodeId)

/-- Some edge leads from `a` to `b`. -/
def WorkflowGraph.Edge (graph : WorkflowGraph) (a b : String) : Prop :=
  ∃ edge ∈ graph.edges, edge.from = a ∧ edge.to = b

/-! ## What the queries return -/

theorem mem_pushNew {ids : List String} {id x : String} :
    x ∈ pushNew ids id ↔ x ∈ ids ∨ x = id := by
  unfold pushNew
  split_ifs with h
  · exact ⟨.inl, fun hx => hx.elim (fun hx => hx) (fun hx => hx ▸ h)⟩
  · simp

theorem nodup_pushNew {ids : List String} (h : ids.Nodup) (id : String) :
    (pushNew ids id).Nodup := by
  unfold pushNew
  split_ifs with hid
  · exact h
  · exact List.Nodup.append h (List.nodup_singleton id) (by simpa using hid)

theorem mem_foldl_pushNew {ids new : List String} {x : String} :
    x ∈ new.foldl pushNew ids ↔ x ∈ ids ∨ x ∈ new := by
  induction new generalizing ids with
  | nil => simp
  | cons id new ih => rw [List.foldl_cons, ih, mem_pushNew, List.mem_cons, or_assoc]

theorem nodup_foldl_pushNew {ids : List String} (h : ids.Nodup) (new : List String) :
    (new.foldl pushNew ids).Nodup := by
  induction new generalizing ids with
  | nil => exact h
  | cons id new ih => exact ih (nodup_pushNew h id)

theorem prefix_foldl_pushNew (ids new : List String) : ids <+: new.foldl pushNew ids := by
  induction new generalizing ids with
  | nil => exact List.prefix_refl ids
  | cons id new ih =>
    refine List.IsPrefix.trans ?_ (ih _)
    unfold pushNew
    split_ifs
    · exact List.prefix_refl ids
    · exact List.prefix_append ids _

/-- The successors in the form of one list of ids pushed in turn. -/
theorem getSuccessorNodeIds_eq (graph : WorkflowGraph) (nodeId : String) :
    getSuccessorNodeIds graph nodeId =
      ((graph.edges.filter fun edge => edge.from = nodeId).map GraphEdge.to).foldl pushNew [] := by
  rw [getSuccessorNodeIds, List.foldl_map, List.foldl_filter]
  simp only [decide_eq_true_eq]

/-- **The successors** are the targets of the edges that leave the node. -/
theorem mem_getSuccessorNodeIds {graph : WorkflowGraph} {nodeId x : String} :
    x ∈ getSuccessorNodeIds graph nodeId ↔ graph.Edge nodeId x := by
  rw [getSuccessorNodeIds_eq, mem_foldl_pushNew]
  simp [WorkflowGraph.Edge, and_assoc]

theorem nodup_getSuccessorNodeIds (graph : WorkflowGraph) (nodeId : String) :
    (getSuccessorNodeIds graph nodeId).Nodup := by
  rw [getSuccessorNodeIds_eq]
  exact nodup_foldl_pushNew List.nodup_nil _

/-- What the breadth-first loop keeps: the ids are distinct descendants of `nodeId`, its direct
successors are among them, and so are the successors of the ids before the index. -/
structure Descending (graph : WorkflowGraph) (nodeId : String) (i : ℕ) (ids : List String) :
    Prop where
  nodup : ids.Nodup
  sound : ∀ x ∈ ids, Relation.TransGen graph.Edge nodeId x
  direct : ∀ x, graph.Edge nodeId x → x ∈ ids
  closed : ∀ j < i, ∀ y, ids[j]? = some y → ∀ x, graph.Edge y x → x ∈ ids

namespace Descending

variable {graph : WorkflowGraph} {nodeId : String} {i : ℕ} {ids : List String}

theorem length_le (h : Descending graph nodeId i ids) : ids.length ≤ graph.edges.length := by
  have hsub : ids ⊆ graph.edges.map GraphEdge.to := by
    intro x hx
    obtain ⟨_, edge, he, -, rfl⟩ := Relation.TransGen.tail'_iff.mp (h.sound x hx) |>.imp
      fun _ hy => hy.2
    exact List.mem_map_of_mem he
  simpa using (List.subperm_of_subset h.nodup hsub).length_le

theorem step (h : Descending graph nodeId i ids) {y : String} (hy : ids[i]? = some y) :
    Descending graph nodeId (i + 1) ((getSuccessorNodeIds graph y).foldl pushNew ids) := by
  have hyd := h.sound y (List.mem_of_getElem? hy)
  obtain ⟨tail, he⟩ := prefix_foldl_pushNew ids (getSuccessorNodeIds graph y)
  refine ⟨nodup_foldl_pushNew h.nodup _, fun x hx => ?_, fun x hx => ?_, fun j hj z hz x hx => ?_⟩
  · rcases mem_foldl_pushNew.mp hx with hx | hx
    · exact h.sound x hx
    · exact hyd.tail (mem_getSuccessorNodeIds.mp hx)
  · exact mem_foldl_pushNew.mpr (.inl (h.direct x hx))
  · have hi := (List.getElem?_eq_some_iff.mp hy).1
    rw [← he, List.getElem?_append_left (by omega)] at hz
    rcases Nat.lt_succ_iff_lt_or_eq.mp hj with hj | rfl
    · exact mem_foldl_pushNew.mpr (.inl (h.closed j hj z hz x hx))
    · obtain rfl : y = z := Option.some.inj (hy.symm.trans hz)
      exact mem_foldl_pushNew.mpr (.inr (mem_getSuccessorNodeIds.mpr hx))

end Descending

/-- The loop runs to its end: with more turns left than ids can follow, the result is closed. -/
theorem expandDescendants_spec {graph : WorkflowGraph} {nodeId : String} {fuel i : ℕ}
    {ids : List String} (h : Descending graph nodeId i ids)
    (hfuel : graph.edges.length < fuel + i) :
    ∃ j, (expandDescendants graph fuel i ids).length ≤ j ∧
      Descending graph nodeId j (expandDescendants graph fuel i ids) := by
  induction fuel generalizing i ids with
  | zero => exact ⟨i, by have := h.length_le; simp only [expandDescendants]; omega, h⟩
  | succ fuel ih =>
    rw [expandDescendants]
    cases hy : ids[i]? with
    | none => exact ⟨i, List.getElem?_eq_none_iff.mp hy, h⟩
    | some y => exact ih (h.step hy) (by omega)

/-- **The descendants** are the nodes reached along one or more edges. -/
theorem mem_getDescendantNodeIds {graph : WorkflowGraph} {nodeId x : String} :
    x ∈ getDescendantNodeIds graph nodeId ↔ Relation.TransGen graph.Edge nodeId x := by
  have h₀ : Descending graph nodeId 0 (getSuccessorNodeIds graph nodeId) :=
    ⟨nodup_getSuccessorNodeIds graph nodeId,
      fun x hx => .single (mem_getSuccessorNodeIds.mp hx),
      fun x hx => mem_getSuccessorNodeIds.mpr hx, fun j hj => absurd hj (Nat.not_lt_zero j)⟩
  obtain ⟨j, hj, h⟩ := expandDescendants_spec h₀
    (by omega : graph.edges.length < graph.edges.length + 1 + 0)
  refine ⟨h.sound x, fun hx => ?_⟩
  induction hx with
  | single hx => exact h.direct _ hx
  | @tail y z _ hyz hy =>
    obtain ⟨k, hk, hky⟩ := List.getElem_of_mem hy
    exact h.closed k (lt_of_lt_of_le hk hj) y (List.getElem?_eq_some_iff.mpr ⟨hk, hky⟩) z hyz

end N8n.Engine
