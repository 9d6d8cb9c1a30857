import N8n.Foundations.Transition
import N8n.PartialExecution.DirectedGraph
import Mathlib.Data.List.TakeWhile

/-!
# Editing a directed graph

The operations that build and change a graph, on node objects: two nodes may have the same name and
still be different objects. A graph keeps its nodes under their names and its connections under
keys assembled from the names of their ends.

## Main definitions

* `NodeGraph`: the graph as the program stores it
* `addNodes`, `addConnections`, `removeNode`, `clone`: the operations
* `editing`: a graph that is edited, as a transition system
* `Intact`: the ends of every connection are stored, and no connection that was added is missing
* `Clean`: an operation that meets no second object of a name, no clash of keys and no loop

## Main results

* `clone_of_intact`: a graph that is intact is equal to its clone
* `intact_iff_clean`: a graph stays intact along a run exactly when every step is clean
-/

namespace N8n.PartialExecution

/-! ## Graphs -/

/-- A node: its name, and which object it is. -/
structure INode where
  name : String
  object : ℕ
deriving DecidableEq, Repr

structure NodeConnection where
  «from» : INode
  «to» : INode
  type : String
  outputIndex : ℕ
  inputIndex : ℕ
deriving DecidableEq, Repr

namespace NodeConnection

def named (connection : NodeConnection) : GraphConnection :=
  ⟨connection.from.name, connection.to.name, connection.type, connection.outputIndex,
    connection.inputIndex⟩

def key (connection : NodeConnection) : String := makeKey connection.named

def ends (connection : NodeConnection) : List INode := [connection.from, connection.to]

end NodeConnection

/-- A connection to add, with its defaults left out. -/
structure ConnectionInput where
  «from» : INode
  «to» : INode
  type : Option String
  outputIndex : Option ℕ
  inputIndex : Option ℕ
deriving DecidableEq, Repr

namespace ConnectionInput

def toConnection (input : ConnectionInput) : NodeConnection :=
  ⟨input.from, input.to, input.type.getD "main", input.outputIndex.getD 0,
    input.inputIndex.getD 0⟩

def ofConnection (connection : NodeConnection) : ConnectionInput :=
  ⟨connection.from, connection.to, some connection.type, some connection.outputIndex,
    some connection.inputIndex⟩

end ConnectionInput

/-- Every node is stored under its name, and every connection under its key. -/
structure NodeGraph where
  nodes : OrderedMap String INode
  connections : OrderedMap String NodeConnection
  nodes_keyed : nodes.Keyed INode.name
  connections_keyed : connections.Keyed NodeConnection.key

structure RemoveNodeOptions where
  reconnectConnections : Bool
  skipConnectionFn : NodeConnection → Bool

namespace NodeGraph

open OrderedMap

def empty : NodeGraph := ⟨.empty, .empty, .empty, .empty⟩

def Stores (graph : NodeGraph) (node : INode) : Prop := graph.nodes.get? node.name = some node

instance (graph : NodeGraph) (node : INode) : Decidable (graph.Stores node) :=
  inferInstanceAs (Decidable (_ = _))

def addNode (graph : NodeGraph) (node : INode) : NodeGraph :=
  { graph with
    nodes := graph.nodes.set node.name node
    nodes_keyed := graph.nodes_keyed.set node }

def addNodes (graph : NodeGraph) (nodes : List INode) : NodeGraph := nodes.foldl addNode graph

/-- Store a connection under its key. -/
def setConnection (graph : NodeGraph) (connection : NodeConnection) : NodeGraph :=
  { graph with
    connections := graph.connections.set connection.key connection
    connections_keyed := graph.connections_keyed.set connection }

def addConnection (graph : NodeGraph) (input : ConnectionInput) : Except String NodeGraph :=
  if ¬ graph.Stores input.from then
    .error ("Cannot add connection: source node \"" ++ input.from.name ++
      "\" is not part of this graph.")
  else if ¬ graph.Stores input.to then
    .error ("Cannot add connection: target node \"" ++ input.to.name ++
      "\" is not part of this graph.")
  else .ok (graph.setConnection input.toConnection)

/-- Add connections up to the first one that fails. -/
def addConnections (graph : NodeGraph) : List ConnectionInput → NodeGraph × Except String Unit
  | [] => (graph, .ok ())
  | input :: inputs =>
    match graph.addConnection input with
    | .error e => (graph, .error e)
    | .ok graph => addConnections graph inputs

/-- The connections that a predicate selects, of a node that is part of the graph. -/
def connectionsOf (graph : NodeGraph) (node : INode) (selects : NodeConnection → Bool) :
    Except String (List NodeConnection) :=
  if graph.Stores node then .ok (graph.connections.values.filter selects)
  else .error ("Node \"" ++ node.name ++ "\" is not part of this graph.")

def getDirectParentConnections (graph : NodeGraph) (node : INode) :
    Except String (List NodeConnection) :=
  graph.connectionsOf node fun connection => connection.to = node

def getDirectChildConnections (graph : NodeGraph) (node : INode) :
    Except String (List NodeConnection) :=
  graph.connectionsOf node fun connection => connection.from = node

/-- Connect every parent with every child. -/
def rewired (options : RemoveNodeOptions) (incoming outgoing : List NodeConnection) :
    List NodeConnection :=
  (incoming.filter fun connection => ! options.skipConnectionFn connection).flatMap fun i =>
    (outgoing.filter fun connection => ! options.skipConnectionFn connection).map fun o =>
      { i with «to» := o.to, inputIndex := o.inputIndex }

def dropNode (graph : NodeGraph) (node : INode) : NodeGraph where
  nodes := graph.nodes.delete node.name
  connections := graph.connections.deleteWhere fun connection => node ∈ connection.ends
  nodes_keyed := graph.nodes_keyed.delete node.name
  connections_keyed := graph.connections_keyed.deleteWhere _

/-- Returns the connections made when the node is bridged. -/
def removeNode (graph : NodeGraph) (node : INode) (options : RemoveNodeOptions) :
    NodeGraph × Except String (Option (List NodeConnection)) :=
  if options.reconnectConnections then
    match graph.getDirectParentConnections node with
    | .error e => (graph, .error e)
    | .ok incoming =>
      match graph.getDirectChildConnections node with
      | .error e => (graph, .error e)
      | .ok outgoing =>
        let newConnections := rewired options incoming outgoing
        (newConnections.foldl setConnection (graph.dropNode node), .ok (some newConnections))
  else (graph.dropNode node, .ok none)

def clone (graph : NodeGraph) : Except String NodeGraph :=
  match (empty.addNodes graph.nodes.values).addConnections
      (graph.connections.values.map ConnectionInput.ofConnection) with
  | (graph, .ok ()) => .ok graph
  | (_, .error e) => .error e

/-! ## What the operations store -/

theorem eq_of_fields {graph graph' : NodeGraph} (hn : graph.nodes = graph'.nodes)
    (hc : graph.connections = graph'.connections) : graph = graph' := by
  cases graph
  cases graph'
  cases hn
  cases hc
  rfl

section Operations

variable {graph : NodeGraph} {inputs : List ConnectionInput}

theorem addNodes_nodes (nodes : List INode) :
    (graph.addNodes nodes).nodes = graph.nodes.insertAll INode.name nodes := by
  unfold addNodes
  induction nodes generalizing graph with
  | nil => rfl
  | cons node nodes ih => exact ih

theorem addNodes_connections (nodes : List INode) :
    (graph.addNodes nodes).connections = graph.connections := by
  unfold addNodes
  induction nodes generalizing graph with
  | nil => rfl
  | cons node nodes ih => exact ih

theorem foldl_setConnection_nodes (connections : List NodeConnection) :
    (connections.foldl setConnection graph).nodes = graph.nodes := by
  induction connections generalizing graph with
  | nil => rfl
  | cons connection connections ih => exact ih

theorem foldl_setConnection_connections (connections : List NodeConnection) :
    (connections.foldl setConnection graph).connections =
      graph.connections.insertAll NodeConnection.key connections := by
  induction connections generalizing graph with
  | nil => rfl
  | cons connection connections ih => exact ih

/-- The connections that are added before the first one with an end that is not stored. -/
def accepted (graph : NodeGraph) (inputs : List ConnectionInput) : List NodeConnection :=
  (inputs.takeWhile fun input => graph.Stores input.from ∧ graph.Stores input.to).map
    ConnectionInput.toConnection

theorem addConnections_fst (inputs : List ConnectionInput) :
    (graph.addConnections inputs).1 = (graph.accepted inputs).foldl setConnection graph := by
  induction inputs generalizing graph with
  | nil => rfl
  | cons input inputs ih =>
    unfold addConnections accepted addConnection
    by_cases hfrom : graph.Stores input.from
    · by_cases hto : graph.Stores input.to
      · simp only [hfrom, hto, not_true, if_false, and_self, decide_true, List.takeWhile_cons,
          if_true, List.map_cons, List.foldl_cons]
        exact ih
      · simp [hfrom, hto]
    · simp [hfrom]

theorem addConnections_ok (h : ∀ input ∈ inputs, graph.Stores input.from ∧ graph.Stores input.to) :
    graph.addConnections inputs =
      ((inputs.map ConnectionInput.toConnection).foldl setConnection graph, .ok ()) := by
  induction inputs generalizing graph with
  | nil => rfl
  | cons input inputs ih =>
    obtain ⟨hfrom, hto⟩ := h input List.mem_cons_self
    rw [addConnections, addConnection, if_neg (not_not.mpr hfrom), if_neg (not_not.mpr hto)]
    exact ih fun other ho => h other (List.mem_cons_of_mem _ ho)

theorem stores_of_mem_accepted {connection : NodeConnection}
    (h : connection ∈ graph.accepted inputs) :
    graph.Stores connection.from ∧ graph.Stores connection.to := by
  obtain ⟨input, hin, rfl⟩ := List.mem_map.mp h
  have hstores := List.mem_takeWhile_imp hin
  rwa [decide_eq_true_eq] at hstores

def EndsStored (graph : NodeGraph) : Prop :=
  ∀ connection ∈ graph.connections.values, ∀ node ∈ connection.ends, graph.Stores node

/-- **A graph whose connections have their ends in it** is equal to its clone. -/
theorem clone_of_endsStored (h : graph.EndsStored) : graph.clone = .ok graph := by
  have hnodes : (empty.addNodes graph.nodes.values).nodes = graph.nodes := by
    rw [addNodes_nodes]
    exact graph.nodes_keyed.insertAll_values
  have hstores : ∀ input ∈ graph.connections.values.map ConnectionInput.ofConnection,
      (empty.addNodes graph.nodes.values).Stores input.from ∧
        (empty.addNodes graph.nodes.values).Stores input.to := by
    intro input hin
    obtain ⟨connection, hc, rfl⟩ := List.mem_map.mp hin
    unfold Stores
    rw [hnodes]
    exact ⟨h connection hc _ (by simp [NodeConnection.ends, ConnectionInput.ofConnection]),
      h connection hc _ (by simp [NodeConnection.ends, ConnectionInput.ofConnection])⟩
  unfold clone
  rw [addConnections_ok hstores]
  refine congrArg Except.ok (eq_of_fields ?_ ?_)
  · rw [foldl_setConnection_nodes, hnodes]
  · rw [foldl_setConnection_connections, addNodes_connections, List.map_map]
    rw [show ConnectionInput.toConnection ∘ ConnectionInput.ofConnection = id from rfl, List.map_id]
    exact graph.connections_keyed.insertAll_values

end Operations

end NodeGraph

/-! ## Runs of edits -/

/-- A graph that is edited, with the connections that should be in it: those that were added, less
those of nodes that were removed. -/
structure Editor where
  graph : NodeGraph
  added : List NodeConnection

inductive Edit
  | addNode (node : INode)
  | addNodes (nodes : List INode)
  | addConnection (input : ConnectionInput)
  | addConnections (inputs : List ConnectionInput)
  | removeNode (node : INode) (options : RemoveNodeOptions)
  | clone

/-- One call, also one that throws. Later calls are made on the clone. -/
def Editor.next (s : Editor) : Edit → Editor
  | .addNode node => { s with graph := s.graph.addNode node }
  | .addNodes nodes => { s with graph := s.graph.addNodes nodes }
  | .addConnection input =>
    match s.graph.addConnection input with
    | .ok graph => ⟨graph, s.added ++ [input.toConnection]⟩
    | .error _ => s
  | .addConnections inputs =>
    ⟨(s.graph.addConnections inputs).1, s.added ++ s.graph.accepted inputs⟩
  | .removeNode node options =>
    match s.graph.removeNode node options with
    | (graph, .ok newConnections) =>
      ⟨graph, (s.added.filter fun connection => node ∉ connection.ends) ++ newConnections.getD []⟩
    | (graph, .error _) => { s with graph }
  | .clone =>
    match s.graph.clone with
    | .ok graph => { s with graph }
    | .error _ => s

def editing : Transition.System Editor Edit where
  init s := s = ⟨.empty, []⟩
  step s e t := s.next e = t

/-- The ends of every connection are nodes of the graph, and every connection that was added is
there unless an end of it was removed. -/
structure Intact (s : Editor) : Prop where
  ends : s.graph.EndsStored
  kept : ∀ connection ∈ s.added, connection ∈ s.graph.connections.values

def NoClash (old new : List NodeConnection) : Prop :=
  ∀ connection, connection ∈ old ∨ connection ∈ new → ∀ connection' ∈ new,
    connection.key = connection'.key → connection = connection'

instance (old new : List NodeConnection) : Decidable (NoClash old new) :=
  decidable_of_iff (∀ connection ∈ old ++ new, ∀ connection' ∈ new,
    connection.key = connection'.key → connection = connection') (by simp [NoClash])

/-- The last of the nodes with the name of an end is that end. -/
def NodeGraph.Agrees (graph : NodeGraph) (nodes : List INode) : Prop :=
  ∀ connection ∈ graph.connections.values, ∀ node ∈ connection.ends, ∀ new,
    nodes.reverse.find? (fun new => new.name = node.name) = some new → new = node

/-- What the operations rely on: the node objects of one name are one object, no two connections
have one key, and a node that is bridged has no loop. -/
def Clean (s : Editor) : Edit → Prop
  | .addNode node => s.graph.Agrees [node]
  | .addNodes nodes => s.graph.Agrees nodes
  | .addConnection input => NoClash s.graph.connections.values (s.graph.accepted [input])
  | .addConnections inputs => NoClash s.graph.connections.values (s.graph.accepted inputs)
  | .removeNode node options =>
    if options.reconnectConnections then
      s.graph.Stores node →
        (∀ connection ∈ s.graph.connections.values, connection.from = node →
          connection.to = node → options.skipConnectionFn connection = true) ∧
        NoClash (s.graph.dropNode node).connections.values
          (NodeGraph.rewired options (s.graph.connections.values.filter fun connection => connection.to = node)
            (s.graph.connections.values.filter fun connection => connection.from = node))
    else
      s.graph.Stores node ∨ ∀ connection ∈ s.graph.connections.values,
        ∀ stored ∈ connection.ends, stored.name ≠ node.name
  | .clone => True

section Steps

variable {s : Editor} {graph : NodeGraph} {added new : List NodeConnection}
  {connection : NodeConnection}

theorem next_addConnection (input : ConnectionInput) :
    s.next (.addConnection input) = s.next (.addConnections [input]) := by
  simp only [Editor.next, NodeGraph.addConnections, NodeGraph.accepted]
  unfold NodeGraph.addConnection
  by_cases hfrom : s.graph.Stores input.from
  · by_cases hto : s.graph.Stores input.to <;> simp [hfrom, hto]
  · simp [hfrom]

/-- Nodes that are added may take the place of nodes with connections. -/
theorem intact_addNodes_iff (h : Intact s) (nodes : List INode) :
    Intact (s.next (.addNodes nodes)) ↔ s.graph.Agrees nodes := by
  have hget : ∀ node, s.graph.Stores node → ((s.graph.addNodes nodes).Stores node ↔
      ∀ new, nodes.reverse.find? (fun new => new.name = node.name) = some new → new = node) := by
    intro node hnode
    unfold NodeGraph.Stores
    rw [NodeGraph.addNodes_nodes, OrderedMap.get?_insertAll, show s.graph.nodes.get? node.name =
      some node from hnode]
    cases nodes.reverse.find? fun new => decide (new.name = node.name) with
    | none => simp
    | some new => simp
  constructor
  · intro ht connection hc node hn new hfind
    have hconnections : connection ∈ (s.graph.addNodes nodes).connections.values := by
      rwa [NodeGraph.addNodes_connections]
    exact (hget node (h.ends connection hc node hn)).mp (ht.ends connection hconnections node hn)
      new hfind
  · intro hclean
    refine ⟨?_, ?_⟩
    · intro connection hc node hn
      simp only [Editor.next, NodeGraph.addNodes_connections] at hc
      exact (hget node (h.ends connection hc node hn)).mpr (hclean connection hc node hn)
    · intro connection hc
      simp only [Editor.next, NodeGraph.addNodes_connections]
      exact h.kept connection hc

/-- Storing connections keeps a graph intact unless keys clash. -/
theorem intact_setConnections_iff (h : Intact ⟨graph, added⟩)
    (hsub : ∀ connection ∈ graph.connections.values, connection ∈ added)
    (hnew : ∀ connection ∈ new, ∀ node ∈ connection.ends, graph.Stores node) :
    Intact ⟨new.foldl NodeGraph.setConnection graph, added ++ new⟩ ↔
      NoClash graph.connections.values new := by
  have hadded : ∀ connection, connection ∈ added ++ new ↔
      connection ∈ graph.connections.values ∨ connection ∈ new := by
    intro connection
    rw [List.mem_append]
    exact or_congr_left ⟨h.kept connection, hsub connection⟩
  rw [NoClash, ← graph.connections_keyed.insertAll_complete_iff]
  constructor
  · intro ht connection hc
    have := ht.kept connection ((hadded connection).mpr hc)
    rwa [NodeGraph.foldl_setConnection_connections] at this
  · intro hall
    refine ⟨?_, ?_⟩
    · intro connection hc node hn
      rw [NodeGraph.foldl_setConnection_connections] at hc
      unfold NodeGraph.Stores
      rw [NodeGraph.foldl_setConnection_nodes]
      rcases OrderedMap.mem_values_insertAll hc with hc | hc
      · exact h.ends connection hc node hn
      · exact hnew connection hc node hn
    · intro connection hc
      rw [NodeGraph.foldl_setConnection_connections]
      exact hall connection ((hadded connection).mp hc)

theorem intact_addConnections_iff (h : Intact s)
    (hsub : ∀ connection ∈ s.graph.connections.values, connection ∈ s.added)
    (inputs : List ConnectionInput) :
    Intact (s.next (.addConnections inputs)) ↔
      NoClash s.graph.connections.values (s.graph.accepted inputs) := by
  rw [← intact_setConnections_iff h hsub]
  · rw [Editor.next, NodeGraph.addConnections_fst]
  · intro connection hc node hn
    obtain ⟨hfrom, hto⟩ := NodeGraph.stores_of_mem_accepted hc
    simp only [NodeConnection.ends, List.mem_cons, List.not_mem_nil, or_false] at hn
    rcases hn with rfl | rfl
    · exact hfrom
    · exact hto

/-! ## Removing a node -/

theorem mem_dropNode {node : INode} :
    connection ∈ (graph.dropNode node).connections.values ↔
      connection ∈ graph.connections.values ∧ node ∉ connection.ends := by
  rw [NodeGraph.dropNode, OrderedMap.mem_values_deleteWhere, decide_eq_false_iff_not]

theorem stores_dropNode {node other : INode} :
    (graph.dropNode node).Stores other ↔ graph.Stores other ∧ other.name ≠ node.name := by
  unfold NodeGraph.Stores NodeGraph.dropNode
  rw [OrderedMap.get?_delete]
  split_ifs with heq
  · simp [heq]
  · simp [heq]

/-- Two stored objects with one name are one object. -/
theorem eq_of_stores {node other : INode} (h : graph.Stores node) (ho : graph.Stores other)
    (heq : other.name = node.name) : other = node := by
  unfold NodeGraph.Stores at h ho
  rw [heq, h] at ho
  exact (Option.some.inj ho).symm

/-- Removing a node leaves the graph intact unless it takes away another node of that name. -/
theorem intact_dropNode_iff (h : Intact s) (node : INode) :
    Intact ⟨s.graph.dropNode node, s.added.filter fun connection => node ∉ connection.ends⟩ ↔
      s.graph.Stores node ∨ ∀ connection ∈ s.graph.connections.values,
        ∀ stored ∈ connection.ends, stored.name ≠ node.name := by
  constructor
  · intro ht
    by_cases hnode : s.graph.Stores node
    · exact .inl hnode
    · refine .inr ?_
      intro connection hc stored hstored hname
      -- the node is not stored, so the connection stays although its end is taken away
      have hends : node ∉ connection.ends := by
        intro hin
        exact hnode (h.ends connection hc node hin)
      have := ht.ends connection (mem_dropNode.mpr ⟨hc, hends⟩) stored hstored
      exact (stores_dropNode.mp this).2 hname
  · intro hclean
    refine ⟨?_, ?_⟩
    · intro connection hc other hother
      obtain ⟨hc, hnot⟩ := mem_dropNode.mp hc
      have hstored := h.ends connection hc other hother
      refine stores_dropNode.mpr ⟨hstored, ?_⟩
      intro hname
      rcases hclean with hnode | hnames
      · exact hnot (eq_of_stores hnode hstored hname ▸ hother)
      · exact hnames connection hc other hother hname
    · intro connection hc
      obtain ⟨hc, hnot⟩ := List.mem_filter.mp hc
      exact mem_dropNode.mpr ⟨h.kept connection hc, by simpa using hnot⟩

theorem mem_rewired {options : RemoveNodeOptions} {incoming outgoing : List NodeConnection} :
    connection ∈ NodeGraph.rewired options incoming outgoing ↔
      ∃ i ∈ incoming, options.skipConnectionFn i = false ∧
        ∃ o ∈ outgoing, options.skipConnectionFn o = false ∧
          { i with «to» := o.to, inputIndex := o.inputIndex } = connection := by
  simp only [NodeGraph.rewired, List.mem_flatMap, List.mem_map, List.mem_filter,
    Bool.not_eq_true', and_assoc]

/-- Bridging a node leaves the graph intact unless the node has a loop or keys clash. -/
theorem intact_bridge_iff (h : Intact s)
    (hsub : ∀ connection ∈ s.graph.connections.values, connection ∈ s.added)
    {node : INode} (hnode : s.graph.Stores node) (options : RemoveNodeOptions) :
    let new := NodeGraph.rewired options
      (s.graph.connections.values.filter fun connection => connection.to = node)
      (s.graph.connections.values.filter fun connection => connection.from = node)
    Intact ⟨new.foldl NodeGraph.setConnection (s.graph.dropNode node),
        (s.added.filter fun connection => node ∉ connection.ends) ++ new⟩ ↔
      (∀ connection ∈ s.graph.connections.values, connection.from = node →
        connection.to = node → options.skipConnectionFn connection = true) ∧
      NoClash (s.graph.dropNode node).connections.values new := by
  intro new
  have hdropped := (intact_dropNode_iff h node).mpr (.inl hnode)
  have hdropsub : ∀ connection ∈ (s.graph.dropNode node).connections.values,
      connection ∈ s.added.filter fun connection => node ∉ connection.ends := by
    intro connection hc
    obtain ⟨hc, hnot⟩ := mem_dropNode.mp hc
    exact List.mem_filter.mpr ⟨hsub connection hc, by simpa using hnot⟩
  by_cases hloops : ∀ connection ∈ s.graph.connections.values, connection.from = node →
      connection.to = node → options.skipConnectionFn connection = true
  · have hends : ∀ connection ∈ new, ∀ other ∈ connection.ends,
        (s.graph.dropNode node).Stores other := by
      intro connection hc other hother
      obtain ⟨i, hi, hskip, o, ho, hskip', rfl⟩ := mem_rewired.mp hc
      simp only [List.mem_filter, decide_eq_true_eq] at hi ho
      simp only [NodeConnection.ends, List.mem_cons, List.not_mem_nil, or_false] at hother
      rcases hother with rfl | rfl
      · have hstored := h.ends i hi.1 i.from (by simp [NodeConnection.ends])
        refine stores_dropNode.mpr ⟨hstored, ?_⟩
        intro hname
        have := hloops i hi.1 (eq_of_stores hnode hstored hname) hi.2
        simp [hskip] at this
      · have hstored := h.ends o ho.1 o.to (by simp [NodeConnection.ends])
        refine stores_dropNode.mpr ⟨hstored, ?_⟩
        intro hname
        have := hloops o ho.1 ho.2 (eq_of_stores hnode hstored hname)
        simp [hskip'] at this
    rw [intact_setConnections_iff hdropped hdropsub hends]
    exact ⟨fun hclash => ⟨hloops, hclash⟩, fun hclean => hclean.2⟩
  · refine ⟨fun ht => absurd ?_ hloops, fun hclean => absurd hclean.1 hloops⟩
    intro loop hl hfrom hto
    by_contra hskip
    -- the loop is bridged with itself
    have hnew : loop ∈ new := by
      refine mem_rewired.mpr ⟨loop, ?_, by simpa using hskip, loop, ?_, by simpa using hskip, rfl⟩
      · simp [hl, hto]
      · simp [hl, hfrom]
    have hkept := ht.kept loop (List.mem_append_right _ hnew)
    have hstored := ht.ends loop hkept loop.from (by simp [NodeConnection.ends])
    unfold NodeGraph.Stores at hstored
    rw [NodeGraph.foldl_setConnection_nodes] at hstored
    exact (stores_dropNode.mp hstored).2 (by rw [hfrom])

def Sourced (s : Editor) : Prop :=
  ∀ connection ∈ s.graph.connections.values, connection ∈ s.added

theorem sourced_setConnections (h : ∀ connection ∈ graph.connections.values, connection ∈ added) :
    Sourced ⟨new.foldl NodeGraph.setConnection graph, added ++ new⟩ := by
  intro connection hc
  rw [NodeGraph.foldl_setConnection_connections] at hc
  rcases OrderedMap.mem_values_insertAll hc with hc | hc
  · exact List.mem_append_left _ (h connection hc)
  · exact List.mem_append_right _ hc

theorem sourced_dropNode (h : Sourced s) (node : INode) :
    Sourced ⟨s.graph.dropNode node, s.added.filter fun connection => node ∉ connection.ends⟩ := by
  intro connection hc
  obtain ⟨hc, hnot⟩ := mem_dropNode.mp hc
  exact List.mem_filter.mpr ⟨h connection hc, by simpa using hnot⟩

/-- What removing a node does, whether it is bridged or not. -/
theorem next_removeNode (node : INode) (options : RemoveNodeOptions) :
    s.next (.removeNode node options) =
      if options.reconnectConnections then
        if s.graph.Stores node then
          let new := NodeGraph.rewired options
            (s.graph.connections.values.filter fun connection => connection.to = node)
            (s.graph.connections.values.filter fun connection => connection.from = node)
          ⟨new.foldl NodeGraph.setConnection (s.graph.dropNode node),
            (s.added.filter fun connection => node ∉ connection.ends) ++ new⟩
        else s
      else ⟨s.graph.dropNode node, s.added.filter fun connection => node ∉ connection.ends⟩ := by
  simp only [Editor.next, NodeGraph.removeNode, NodeGraph.getDirectParentConnections,
    NodeGraph.getDirectChildConnections, NodeGraph.connectionsOf]
  split_ifs with hreconnect hnode
  · rfl
  · rfl
  · simp

theorem Sourced.next (h : Sourced s) (hi : Intact s) (e : Edit) : Sourced (s.next e) := by
  cases e with
  | addNode node => exact h
  | addNodes nodes =>
    intro connection hc
    simp only [Editor.next, NodeGraph.addNodes_connections] at hc
    exact h connection hc
  | addConnection input =>
    rw [next_addConnection]
    simp only [Editor.next, NodeGraph.addConnections_fst]
    exact sourced_setConnections h
  | addConnections inputs =>
    simp only [Editor.next, NodeGraph.addConnections_fst]
    exact sourced_setConnections h
  | removeNode node options =>
    rw [next_removeNode]
    split_ifs
    · exact sourced_setConnections (sourced_dropNode h node)
    · exact h
    · exact sourced_dropNode h node
  | clone =>
    simp only [Editor.next, NodeGraph.clone_of_endsStored hi.ends]
    exact h

/-- **One edit leaves a graph intact exactly when it is clean.** -/
theorem intact_next_iff (hi : Intact s) (h : Sourced s) (e : Edit) :
    Intact (s.next e) ↔ Clean s e := by
  cases e with
  | addNode node => exact intact_addNodes_iff hi [node]
  | addNodes nodes => exact intact_addNodes_iff hi nodes
  | addConnection input =>
    rw [next_addConnection]
    exact intact_addConnections_iff hi h [input]
  | addConnections inputs => exact intact_addConnections_iff hi h inputs
  | removeNode node options =>
    rw [next_removeNode, Clean]
    split_ifs with hreconnect hnode
    · rw [forall_prop_of_true hnode]
      exact intact_bridge_iff hi h hnode options
    · exact iff_of_true hi fun hstored => absurd hstored hnode
    · exact intact_dropNode_iff hi node
  | clone =>
    simp only [Editor.next, NodeGraph.clone_of_endsStored hi.ends]
    exact iff_of_true hi trivial

end Steps

/-- **A graph stays intact along a run of edits exactly when** every edit is clean. -/
theorem intact_iff_clean {s t : Editor} {es : List Edit} (h : editing.init s) :
    (editing.restrict fun _ _ t => Intact t).Run s es t ↔
      (editing.restrict fun s e _ => Clean s e).Run s es t := by
  subst h
  refine Transition.System.Run.restrict_congr (I := fun s => Intact s ∧ Sourced s) ?_ ?_ ?_
  · refine ⟨⟨?_, ?_⟩, ?_⟩
    · intro connection hc
      exact absurd hc (List.not_mem_nil (a := connection))
    · intro connection hc
      exact absurd hc (List.not_mem_nil (a := connection))
    · intro connection hc
      exact absurd hc (List.not_mem_nil (a := connection))
  · rintro u e v ⟨hi, hs⟩ rfl hv
    exact ⟨hv, hs.next hi e⟩
  · rintro u e v ⟨hi, hs⟩ rfl
    exact intact_next_iff hi hs e

/-! ## Edits that are not clean -/

theorem foldl_of_run {s t : Editor} {es : List Edit} (h : editing.Run s es t) :
    t = es.foldl Editor.next s := by
  induction h with
  | nil => rfl
  | snoc _ hstep ih =>
    rw [List.foldl_append, ← ih]
    exact hstep.symm

def mainConnection (source target : INode) : ConnectionInput := ⟨source, target, none, none, none⟩

def bridgedLoop : List Edit :=
  [.addNodes [⟨"X", 0⟩, ⟨"A", 1⟩, ⟨"Y", 2⟩],
    .addConnections [mainConnection ⟨"X", 0⟩ ⟨"A", 1⟩, mainConnection ⟨"A", 1⟩ ⟨"A", 1⟩,
      mainConnection ⟨"A", 1⟩ ⟨"Y", 2⟩],
    .removeNode ⟨"A", 1⟩ ⟨true, fun _ => false⟩]

/-- Another object takes the name of a node that has a connection. -/
def replacedNode : List Edit :=
  [.addNodes [⟨"A", 0⟩, ⟨"B", 1⟩], .addConnection (mainConnection ⟨"A", 0⟩ ⟨"B", 1⟩),
    .addNode ⟨"A", 2⟩]

/-- Two connections between different nodes have one key. -/
def clashingKeys : List Edit :=
  [.addNodes [⟨"A", 0⟩, ⟨"B-main-0-0-C", 1⟩, ⟨"A-main-0-0-B", 2⟩, ⟨"C", 3⟩],
    .addConnection (mainConnection ⟨"A", 0⟩ ⟨"B-main-0-0-C", 1⟩),
    .addConnection (mainConnection ⟨"A-main-0-0-B", 2⟩ ⟨"C", 3⟩)]

/-- The graph at the end of a run that keeps it intact. -/
theorem intact_of_run {es : List Edit} {e : Edit} {t : Editor}
    (h : (editing.restrict fun _ _ t => Intact t).Run ⟨.empty, []⟩ (es ++ [e]) t) :
    Intact ((es ++ [e]).foldl Editor.next ⟨.empty, []⟩) := by
  obtain ⟨u, -, -, ht⟩ := h.exists_last
  exact foldl_of_run h.of_restrict ▸ ht

/-- Each of these lists of edits leaves a connection whose end is not in the graph, or loses one. -/
theorem not_intact_of_edits :
    (¬ ∃ t, (editing.restrict fun _ _ t => Intact t).Run ⟨.empty, []⟩ bridgedLoop t) ∧
    (¬ ∃ t, (editing.restrict fun _ _ t => Intact t).Run ⟨.empty, []⟩ replacedNode t) ∧
    ¬ ∃ t, (editing.restrict fun _ _ t => Intact t).Run ⟨.empty, []⟩ clashingKeys t := by
  refine ⟨?_, ?_, ?_⟩
  · rintro ⟨t, h⟩
    have hi := @intact_of_run (bridgedLoop.take 2) (.removeNode ⟨"A", 1⟩ ⟨true, fun _ => false⟩) t h
    have := hi.ends ⟨⟨"A", 1⟩, ⟨"Y", 2⟩, "main", 0, 0⟩ (by decide) ⟨"A", 1⟩ (by decide)
    revert this
    decide
  · rintro ⟨t, h⟩
    have hi := @intact_of_run (replacedNode.take 2) (.addNode ⟨"A", 2⟩) t h
    have := hi.ends ⟨⟨"A", 0⟩, ⟨"B", 1⟩, "main", 0, 0⟩ (by decide) ⟨"A", 0⟩ (by decide)
    revert this
    decide
  · rintro ⟨t, h⟩
    have hi := @intact_of_run (clashingKeys.take 2)
      (.addConnection (mainConnection ⟨"A-main-0-0-B", 2⟩ ⟨"C", 3⟩)) t h
    have := hi.kept ⟨⟨"A", 0⟩, ⟨"B-main-0-0-C", 1⟩, "main", 0, 0⟩ (by decide)
    revert this
    decide

/-- A node between two others is bridged. -/
theorem intact_iff_clean_bridge : ∃ t, (editing.restrict fun _ _ t => Intact t).Run ⟨.empty, []⟩
    [.addNodes [⟨"X", 0⟩, ⟨"A", 1⟩, ⟨"Y", 2⟩],
      .addConnections [mainConnection ⟨"X", 0⟩ ⟨"A", 1⟩, mainConnection ⟨"A", 1⟩ ⟨"Y", 2⟩],
      .removeNode ⟨"A", 1⟩ ⟨true, fun _ => false⟩] t := by
  refine ⟨_, (intact_iff_clean rfl).mpr (.restrict_cons rfl ?_ (.restrict_cons rfl ?_
    (.restrict_cons rfl ?_ .nil)))⟩
  · intro connection hc
    exact absurd hc (List.not_mem_nil (a := connection))
  · show NoClash _ _
    decide
  · show _ → _ ∧ NoClash _ _
    decide

end N8n.PartialExecution
