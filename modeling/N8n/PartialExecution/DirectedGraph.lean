import N8n.Foundations.OrderedMap

/-!
# Directed graphs

The graph of nodes and connections that partial executions work on, and its search for strongly
connected components. A node is identified by its name.

## Main definitions

* `DirectedGraph`: nodes and connections, with every connection between nodes of the graph
* `DirectedGraph.addNode`, `DirectedGraph.addConnection`: building a graph
* `DirectedGraph.getStronglyConnectedComponents`: the components
-/

namespace N8n.PartialExecution

structure GraphConnection where
  «from» : String
  «to» : String
  type : String
  outputIndex : ℕ
  inputIndex : ℕ
  deriving DecidableEq

def makeKey (connection : GraphConnection) : String :=
  connection.from ++ "-" ++ connection.type ++ "-" ++ toString connection.outputIndex ++ "-" ++
    toString connection.inputIndex ++ "-" ++ connection.to

structure DirectedGraph where
  /-- The names of the nodes, in the order in which they were added. -/
  nodes : List String
  connections : OrderedMap String GraphConnection
  nodup_nodes : nodes.Nodup
  ends_mem : ∀ connection ∈ connections.values, connection.from ∈ nodes ∧ connection.to ∈ nodes

namespace DirectedGraph

def empty : DirectedGraph := ⟨[], .empty, List.nodup_nil, by simp [OrderedMap.values, OrderedMap.empty]⟩

def addNode (graph : DirectedGraph) (node : String) : DirectedGraph where
  nodes := if node ∈ graph.nodes then graph.nodes else graph.nodes ++ [node]
  connections := graph.connections
  nodup_nodes := by
    split_ifs with h
    · exact graph.nodup_nodes
    · exact graph.nodup_nodes.append (List.nodup_singleton node) (by simpa using h)
  ends_mem connection hc := by
    obtain ⟨hf, ht⟩ := graph.ends_mem connection hc
    split_ifs
    · exact ⟨hf, ht⟩
    · exact ⟨List.mem_append_left _ hf, List.mem_append_left _ ht⟩

/-- Add a connection, unless one of its ends is not part of the graph. -/
def addConnection (graph : DirectedGraph) (connection : GraphConnection) : Option DirectedGraph :=
  if h : connection.from ∈ graph.nodes ∧ connection.to ∈ graph.nodes then
    some {
      nodes := graph.nodes
      connections := graph.connections.set (makeKey connection) connection
      nodup_nodes := graph.nodup_nodes
      ends_mem := fun c hc => by
        rcases OrderedMap.mem_values_set hc with rfl | hc
        · exact h
        · exact graph.ends_mem c hc }
  else none

def getDirectChildConnections (graph : DirectedGraph) (node : String) : List GraphConnection :=
  graph.connections.values.filter fun connection => connection.from = node

def directChildren (graph : DirectedGraph) (node : String) : List String :=
  (graph.getDirectChildConnections node).map GraphConnection.to

theorem directChildren_mem {graph : DirectedGraph} {node child : String}
    (h : child ∈ graph.directChildren node) : child ∈ graph.nodes := by
  obtain ⟨connection, hc, rfl⟩ := List.mem_map.mp h
  exact (graph.ends_mem connection (List.mem_filter.mp hc).1).2

/-! ## Strongly connected components -/

/-- What `getStronglyConnectedComponents` keeps while it follows nodes. -/
structure ComponentState where
  id : ℕ
  visited : String → Bool
  ids : String → Option ℕ
  lowLinkValues : String → ℕ
  /-- The stack, its top first. -/
  stack : List String
  stronglyConnectedComponents : List (List String)

namespace ComponentState

def initial : ComponentState := ⟨0, fun _ => false, fun _ => none, fun _ => 0, [], []⟩

def visit (st : ComponentState) (node : String) : ComponentState where
  id := st.id + 1
  visited := Function.update st.visited node true
  ids := Function.update st.ids node (some st.id)
  lowLinkValues := Function.update st.lowLinkValues node st.id
  stack := node :: st.stack
  stronglyConnectedComponents := st.stronglyConnectedComponents

def takeLow (st : ComponentState) (node child : String) : ComponentState :=
  if child ∈ st.stack then
    { st with
      lowLinkValues := Function.update st.lowLinkValues node
        (min (st.lowLinkValues child) (st.lowLinkValues node)) }
  else st

/-- Pop from the stack until it is empty or a node has a different low value. -/
def popComponent (st : ComponentState) (ownId : ℕ) : ComponentState :=
  let scc := st.stack.takeWhile fun next => st.lowLinkValues next = ownId
  { st with
    stack := st.stack.dropWhile fun next => st.lowLinkValues next = ownId
    stronglyConnectedComponents :=
      if scc = [] then st.stronglyConnectedComponents
      else st.stronglyConnectedComponents ++ [scc] }

/-- After the children of a node: a node whose low value is its id ends a component. -/
def leave (st : ComponentState) (node : String) : ComponentState :=
  if st.ids node = some (st.lowLinkValues node) then st.popComponent (st.lowLinkValues node) else st

end ComponentState

def followChild (followNode : ComponentState → String → ComponentState) (node : String)
    (st : ComponentState) (child : String) : ComponentState :=
  (followNode st child).takeLow node child

/-- `fuel` bounds the depth of the recursion. -/
def followNode (graph : DirectedGraph) : ℕ → ComponentState → String → ComponentState
  | 0, st, _ => st
  | fuel + 1, st, node =>
    if st.visited node then st
    else
      ((graph.directChildren node).foldl (followChild (followNode graph fuel) node)
        (st.visit node)).leave node

def getStronglyConnectedComponents (graph : DirectedGraph) : List (List String) :=
  (graph.nodes.foldl (followNode graph (graph.nodes.length + 1)) .initial).stronglyConnectedComponents

end DirectedGraph

end N8n.PartialExecution
