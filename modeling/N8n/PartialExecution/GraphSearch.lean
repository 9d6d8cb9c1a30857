import N8n.Foundations.Collecting
import N8n.PartialExecution.GraphEditing

/-!
# Searching a directed graph

The children of a node, and the connections that lead to it, directly or through other nodes and
over all types of connections.

## Main definitions

* `IntactGraph`: a graph whose connections have their ends in it
* `Path`: a path of connections of some kind
* `getChildren`, `getParentConnections`: the searches

## Main results

* `mem_getChildren`, `mem_getParentConnections`: the searches end, and what they find
-/

namespace N8n.PartialExecution

/-- A graph whose connections have their ends in it, as `addConnection` sees to. -/
structure IntactGraph extends NodeGraph where
  endsStored : toNodeGraph.EndsStored

def OfSubNode (c : NodeConnection) : Prop := c.type ≠ "main"

instance : DecidablePred OfSubNode := fun c => inferInstanceAs (Decidable (c.type ≠ "main"))

namespace NodeGraph

variable (graph : NodeGraph)

/-! ## Paths -/

def Step (kind : NodeConnection → Prop) (source target : INode) : Prop :=
  ∃ c ∈ graph.connections.values, kind c ∧ c.from = source ∧ c.to = target

def Path (kind : NodeConnection → Prop) : INode → INode → Prop :=
  Relation.ReflTransGen (graph.Step kind)

/-- The node is after the other one. -/
def Descends : INode → INode → Prop := Relation.TransGen (graph.Step fun _ => True)

variable {graph} in
theorem path_of_kind {kind : NodeConnection → Prop} {a b : INode}
    (h : graph.Path kind a b) : graph.Path (fun _ => True) a b := by
  induction h with
  | refl => exact .refl
  | tail _ hstep ih =>
    obtain ⟨c, hc, -, hends⟩ := hstep
    exact ih.tail ⟨c, hc, trivial, hends⟩

/-! ## The searches -/

def callStackExceeded : String := "Maximum call stack size exceeded"

def getChildren (node : INode) : Except String (List INode) :=
  Collecting.collect callStackExceeded
    (fun node => (graph.getDirectChildConnections node).map (·.map NodeConnection.to)) id
    (graph.connections.values.length + 1) node

def getParentConnections (node : INode) : Except String (List NodeConnection) :=
  Collecting.collect callStackExceeded graph.getDirectParentConnections NodeConnection.from
    (graph.connections.values.length + 1) node

end NodeGraph

namespace IntactGraph

variable (graph : IntactGraph) {node other : INode} {c : NodeConnection}

theorem stores_from (hc : c ∈ graph.connections.values) : graph.Stores c.from :=
  graph.endsStored c hc _ List.mem_cons_self

theorem stores_to (hc : c ∈ graph.connections.values) : graph.Stores c.to :=
  graph.endsStored c hc _ (List.mem_cons_of_mem _ (List.mem_singleton_self _))

def childrenOf (node : INode) : List INode :=
  (graph.connections.values.filter fun c => c.from = node).map NodeConnection.to

def parentConnectionsOf (node : INode) : List NodeConnection :=
  graph.connections.values.filter fun c => c.to = node

theorem mem_parentConnectionsOf :
    c ∈ graph.parentConnectionsOf node ↔ c ∈ graph.connections.values ∧ c.to = node := by
  simp [parentConnectionsOf]

theorem mem_childrenOf :
    other ∈ graph.childrenOf node ↔ graph.Step (fun _ => True) node other := by
  simp only [childrenOf, List.mem_map, List.mem_filter, decide_eq_true_eq, NodeGraph.Step, true_and]
  exact exists_congr fun c => and_assoc

theorem getDirectParentConnections_eq (hnode : graph.Stores node) :
    graph.getDirectParentConnections node = .ok (graph.parentConnectionsOf node) := by
  rw [NodeGraph.getDirectParentConnections, NodeGraph.connectionsOf, if_pos hnode]
  rfl

theorem getDirectChildConnections_eq (hnode : graph.Stores node) :
    graph.getDirectChildConnections node =
      .ok (graph.connections.values.filter fun c => c.from = node) := by
  rw [NodeGraph.getDirectChildConnections, NodeGraph.connectionsOf, if_pos hnode]

/-! ## What the searches find -/

theorem searchable_children : Collecting.Searchable
    (fun node => (graph.getDirectChildConnections node).map (·.map NodeConnection.to)) id
    graph.childrenOf graph.Stores (graph.connections.values.map NodeConnection.to).toFinset where
  next_eq node hnode := by
    rw [graph.getDirectChildConnections_eq hnode]
    rfl
  enter_mem node _ child hchild := by
    obtain ⟨c, hc, rfl⟩ := List.mem_map.mp hchild
    exact graph.stores_to (List.mem_filter.mp hc).1
  mem_all node _ child hchild := by
    obtain ⟨c, hc, rfl⟩ := List.mem_map.mp hchild
    exact List.mem_toFinset.mpr (List.mem_map_of_mem (List.mem_filter.mp hc).1)

theorem searchable_parentConnections : Collecting.Searchable graph.getDirectParentConnections
    NodeConnection.from graph.parentConnectionsOf graph.Stores
    graph.connections.values.toFinset where
  next_eq _ hnode := graph.getDirectParentConnections_eq hnode
  enter_mem _ _ _ hc := graph.stores_from (List.mem_filter.mp hc).1
  mem_all _ _ _ hc := List.mem_toFinset.mpr (List.mem_filter.mp hc).1

theorem leads_childrenOf_iff :
    Collecting.Leads graph.childrenOf id node other ↔ graph.Descends node other := by
  constructor
  · intro h
    induction h with
    | direct hmem => exact .single (graph.mem_childrenOf.mp hmem)
    | through hmem _ ih => exact .head (graph.mem_childrenOf.mp hmem) ih
  · intro h
    induction h using Relation.TransGen.head_induction_on with
    | single hstep => exact .direct (graph.mem_childrenOf.mpr hstep)
    | head hstep _ ih => exact .through (graph.mem_childrenOf.mpr hstep) ih

theorem leads_parentConnectionsOf_iff :
    Collecting.Leads graph.parentConnectionsOf NodeConnection.from node c ↔
      c ∈ graph.connections.values ∧ graph.Path (fun _ => True) c.to node := by
  constructor
  · intro h
    induction h with
    | direct hmem =>
      obtain ⟨hc, rfl⟩ := graph.mem_parentConnectionsOf.mp hmem
      exact ⟨hc, .refl⟩
    | through hmem _ ih =>
      obtain ⟨hb, rfl⟩ := graph.mem_parentConnectionsOf.mp hmem
      exact ⟨ih.1, ih.2.tail ⟨_, hb, trivial, rfl, rfl⟩⟩
  · rintro ⟨hc, hpath⟩
    -- along the path, from its last connection to the one that is looked for
    induction hpath with
    | refl => exact .direct (graph.mem_parentConnectionsOf.mpr ⟨hc, rfl⟩)
    | tail _ hstep ih =>
      obtain ⟨d, hd, -, rfl, rfl⟩ := hstep
      exact .through (graph.mem_parentConnectionsOf.mpr ⟨hd, rfl⟩) ih

/-- **The children of a node are the nodes after it.** -/
theorem mem_getChildren (hnode : graph.Stores node) :
    ∃ children, graph.getChildren node = .ok children ∧
      ∀ other, other ∈ children ↔ graph.Descends node other := by
  have hcard : (graph.connections.values.map NodeConnection.to).toFinset.card <
      graph.connections.values.length + 1 := by
    have hle := List.toFinset_card_le (graph.connections.values.map NodeConnection.to)
    rw [List.length_map] at hle
    omega
  obtain ⟨children, hrun, hmem⟩ :=
    Collecting.collect_spec NodeGraph.callStackExceeded graph.searchable_children hnode hcard
  exact ⟨children, hrun, fun other => (hmem other).trans graph.leads_childrenOf_iff⟩

/-- **The parent connections of a node are those that lead to it**, over all types of
connections. -/
theorem mem_getParentConnections (hnode : graph.Stores node) :
    ∃ connections, graph.getParentConnections node = .ok connections ∧ ∀ c, c ∈ connections ↔
      c ∈ graph.connections.values ∧ graph.Path (fun _ => True) c.to node := by
  have hcard : graph.connections.values.toFinset.card < graph.connections.values.length + 1 :=
    Nat.lt_succ_of_le (List.toFinset_card_le _)
  obtain ⟨connections, hrun, hmem⟩ := Collecting.collect_spec NodeGraph.callStackExceeded
    graph.searchable_parentConnections hnode hcard
  exact ⟨connections, hrun, fun c => (hmem c).trans graph.leads_parentConnectionsOf_iff⟩

theorem stores_of_descends (h : graph.Descends node other) :
    graph.Stores other := by
  obtain ⟨mid, -, c, hc, -, -, rfl⟩ := Relation.TransGen.tail'_iff.mp h
  exact graph.stores_to hc

end IntactGraph

end N8n.PartialExecution
