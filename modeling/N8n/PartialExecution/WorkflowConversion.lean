import N8n.PartialExecution.GraphEditing
import N8n.Workflows.Connections

/-!
# Workflows and their graphs

A workflow is turned into a directed graph for partial execution, and the graph back into a
workflow.

## Main definitions

* `IWorkflow`: the nodes and the connections of a workflow
* `fromWorkflow`, `toWorkflow`: the conversions
* `IWorkflow.Convertible`: the workflows of which the conversions lose nothing

## Main results

* `roundTrip_iff`: a workflow comes back exactly if it is one of these
-/

namespace N8n.PartialExecution

open Workflows OrderedMap NodeGraph NodeConnection

/-- A workflow, with its nodes under their names. -/
structure IWorkflow where
  nodes : OrderedMap String INode
  connectionsBySourceNode : IConnections
  nodes_keyed : nodes.Keyed INode.name

namespace IWorkflow

def getNode (workflow : IWorkflow) (nodeName : String) : Option INode := workflow.nodes.get? nodeName

/-- `new Workflow` with nodes and connections. -/
def create (nodes : List INode) (connections : IConnections) : IWorkflow where
  nodes := OrderedMap.empty.insertAll INode.name nodes
  connectionsBySourceNode := connections
  nodes_keyed := OrderedMap.Keyed.empty.insertAll nodes

def ReferencesNodes (workflow : IWorkflow) : Prop :=
  (∀ source ∈ workflow.connectionsBySourceNode.keys, (workflow.getNode source).isSome) ∧
    ∀ link ∈ links workflow.connectionsBySourceNode,
      (workflow.getNode link.out.connection.node).isSome

end IWorkflow

/-! ## The conversions -/

/-- `a.ok(node)`. -/
def assertNode (node : Option INode) : Except String INode :=
  match node with
  | some node => .ok node
  | none => .error "The expression evaluated to a falsy value"

def addOutgoing (workflow : IWorkflow) («from» : INode) (graph : NodeGraph) (out : Outgoing) :
    Except String NodeGraph := do
  let «to» ← assertNode (workflow.getNode out.connection.node)
  graph.addConnection ⟨«from», «to», some out.type, some out.outputIndex, some out.connection.index⟩

def addEntry (workflow : IWorkflow) (graph : NodeGraph) (entry : String × INodeConnections) :
    Except String NodeGraph := do
  let «from» ← assertNode (workflow.getNode entry.1)
  (outgoing entry.2).foldlM (addOutgoing workflow «from») graph

def fromWorkflow (workflow : IWorkflow) : Except String NodeGraph :=
  (objectEntries workflow.connectionsBySourceNode).foldlM (addEntry workflow)
    (NodeGraph.empty.addNodes ((objectEntries workflow.nodes).map Prod.snd))

/-- The object that a connection is added to: `result[from.name] ?? { [type]: [] }`. -/
def resultConnection (result : IConnections) (connection : NodeConnection) : INodeConnections :=
  (result.get? connection.from.name).getD (OrderedMap.empty.set connection.type [])

/-- Add a connection at its source, type and output. The object of a source has an array for the
type of its first connection only. -/
def addToResult (result : IConnections) (connection : NodeConnection) :
    Except String IConnections :=
  if connection.from.name ∈ objectPrototypeNames then
    -- an inherited function is found at this name
    .error "TypeError: Cannot read properties of undefined"
  else
    match (resultConnection result connection).get? connection.type with
    | none => .error "TypeError: Cannot read properties of undefined"
    | some outputs =>
      .ok (result.set connection.from.name ((resultConnection result connection).set connection.type
        (pushAt outputs connection.outputIndex
          ⟨connection.to.name, connection.type, connection.inputIndex⟩)))

def toIConnections (graph : NodeGraph) : Except String IConnections :=
  graph.connections.values.foldlM addToResult .empty

def toWorkflow (graph : NodeGraph) : Except String IWorkflow := do
  let connections ← toIConnections graph
  return IWorkflow.create graph.nodes.values connections

def roundTrip (workflow : IWorkflow) : Except String IWorkflow := do
  let graph ← fromWorkflow workflow
  toWorkflow graph

/-! ## From a workflow -/

section FromWorkflow

variable {workflow : IWorkflow} {graph : NodeGraph}

def linkConnection (workflow : IWorkflow) (link : Link) : Option NodeConnection :=
  (workflow.getNode link.source).bind fun «from» =>
    (workflow.getNode link.out.connection.node).map fun «to» =>
      ⟨«from», «to», link.out.type, link.out.outputIndex, link.out.connection.index⟩

/-- The connections of a workflow in the order in which they are added. -/
def nodeConnections (workflow : IWorkflow) : List NodeConnection :=
  (links workflow.connectionsBySourceNode).filterMap (linkConnection workflow)

def HasNodes (workflow : IWorkflow) (graph : NodeGraph) : Prop :=
  ∀ name node, workflow.getNode name = some node → graph.Stores node

theorem HasNodes.foldl (h : HasNodes workflow graph) (connections : List NodeConnection) :
    HasNodes workflow (connections.foldl setConnection graph) := by
  intro name node hget
  rw [NodeGraph.Stores, foldl_setConnection_nodes]
  exact h name node hget

theorem addOutgoing_foldlM {source : String} {«from» : INode}
    (hfrom : workflow.getNode source = some «from») (h : HasNodes workflow graph)
    {outs : List Outgoing}
    (hto : ∀ out ∈ outs, (workflow.getNode out.connection.node).isSome) :
    outs.foldlM (addOutgoing workflow «from») graph =
      .ok (((outs.map (Link.mk source)).filterMap (linkConnection workflow)).foldl
        setConnection graph) := by
  induction outs generalizing graph with
  | nil => rfl
  | cons out outs ih =>
    obtain ⟨node, hnode⟩ := Option.isSome_iff_exists.mp (hto out List.mem_cons_self)
    have hadd : addOutgoing workflow «from» graph out = .ok (graph.setConnection
        ⟨«from», node, out.type, out.outputIndex, out.connection.index⟩) := by
      rw [addOutgoing, hnode]
      change graph.addConnection _ = _
      rw [addConnection, if_neg (not_not.mpr (h _ _ hfrom)),
        if_neg (not_not.mpr (h _ _ hnode))]
      rfl
    have hlink : linkConnection workflow ⟨source, out⟩ =
        some ⟨«from», node, out.type, out.outputIndex, out.connection.index⟩ := by
      rw [linkConnection, hfrom, hnode]
      rfl
    rw [List.foldlM_cons, hadd, List.map_cons, List.filterMap_cons_some hlink, List.foldl_cons]
    exact ih (h.foldl [_]) fun out' hout' => hto out' (List.mem_cons_of_mem _ hout')

theorem mem_nodeValues {node : INode} : node ∈ (objectEntries workflow.nodes).map Prod.snd ↔
    workflow.nodes.get? node.name = some node := by
  constructor
  · intro hnode
    obtain ⟨⟨name, node⟩, hentry, rfl⟩ := List.mem_map.mp hnode
    have hget := mem_objectEntries.mp hentry
    rwa [workflow.nodes_keyed name node hget]
  · exact fun hget => List.mem_map.mpr ⟨(node.name, node), mem_objectEntries.mpr hget, rfl⟩

theorem get?_addNodes (name : String) :
    ((empty.addNodes ((objectEntries workflow.nodes).map Prod.snd)).nodes).get? name =
      workflow.nodes.get? name := by
  have hkeyed : (empty : OrderedMap String INode).Keyed INode.name := .empty
  apply Option.ext
  intro node
  rw [addNodes_nodes]
  constructor
  · intro hget
    obtain rfl := hkeyed.insertAll _ name node hget
    rcases mem_values_insertAll (mem_values.mpr ⟨_, hget⟩) with hnode | hnode
    · exact absurd hnode List.not_mem_nil
    · exact mem_nodeValues.1 hnode
  · intro hget
    obtain rfl := workflow.nodes_keyed name node hget
    obtain ⟨node', hnode', hname⟩ :=
      hkeyed.exists_mem_values_insertAll (mem_nodeValues.2 hget)
    -- the node that stays under the name is the one of the workflow
    obtain rfl : node' = node := by
      rcases mem_values_insertAll hnode' with h | h
      · exact absurd h List.not_mem_nil
      · have := mem_nodeValues.1 h
        rw [hname, hget] at this
        exact (Option.some.inj this).symm
    exact (hkeyed.insertAll _).mem_values.mp hnode'

theorem hasNodes_start (workflow : IWorkflow) :
    HasNodes workflow (empty.addNodes ((objectEntries workflow.nodes).map Prod.snd)) := by
  intro name node hget
  rw [NodeGraph.Stores, get?_addNodes, workflow.nodes_keyed name node hget]
  exact hget

theorem addEntry_ok {entry : String × INodeConnections} (h : workflow.ReferencesNodes)
    (hentry : entry ∈ objectEntries workflow.connectionsBySourceNode)
    (hnodes : HasNodes workflow graph) : addEntry workflow graph entry =
      .ok ((((outgoing entry.2).map (Link.mk entry.1)).filterMap (linkConnection workflow)).foldl
        setConnection graph) := by
  obtain ⟨source, byType⟩ := entry
  have hget := mem_objectEntries.mp hentry
  obtain ⟨«from», hfrom⟩ := Option.isSome_iff_exists.mp
    (h.1 source (mem_keys.mpr ⟨byType, hget⟩))
  rw [addEntry, hfrom]
  exact addOutgoing_foldlM hfrom hnodes fun out hout =>
    h.2 ⟨source, out⟩ (mem_links.mpr ⟨byType, hget, hout⟩)

/-- **A workflow whose connections reference its nodes** becomes the graph of its connections. -/
theorem fromWorkflow_ok (h : workflow.ReferencesNodes) : fromWorkflow workflow =
    .ok ((nodeConnections workflow).foldl setConnection
      (empty.addNodes ((objectEntries workflow.nodes).map Prod.snd))) := by
  have key : ∀ (entries : List (String × INodeConnections)) (graph : NodeGraph),
      (∀ entry ∈ entries, entry ∈ objectEntries workflow.connectionsBySourceNode) →
      HasNodes workflow graph → entries.foldlM (addEntry workflow) graph =
        .ok (((entries.flatMap fun entry => (outgoing entry.2).map (Link.mk entry.1)).filterMap
          (linkConnection workflow)).foldl setConnection graph) := by
    intro entries
    induction entries with
    | nil => exact fun graph _ _ => rfl
    | cons entry entries ih =>
      intro graph hmem hnodes
      rw [List.foldlM_cons, addEntry_ok h (hmem _ List.mem_cons_self) hnodes, List.flatMap_cons,
        List.filterMap_append, List.foldl_append]
      exact ih _ (fun e he => hmem e (List.mem_cons_of_mem _ he)) (hnodes.foldl _)
  exact key _ _ (fun _ hentry => hentry) (hasNodes_start workflow)

end FromWorkflow

/-! ## Back to a workflow -/

section ToWorkflow

variable {done : List NodeConnection} {result result' : IConnections} {connection : NodeConnection}

def linkKey (link : Link) : String :=
  makeKey ⟨link.source, link.out.connection.node, link.out.type, link.out.outputIndex,
    link.out.connection.index⟩

/-- A connection as a workflow stores it once it was part of a graph. -/
def NodeConnection.link (connection : NodeConnection) : Link :=
  ⟨connection.from.name, connection.type, connection.outputIndex,
    connection.to.name, connection.type, connection.inputIndex⟩

/-- The result holds the connections that were added, of one type for each source. -/
structure Converted (done : List NodeConnection) (result : IConnections) : Prop where
  links : ∀ link, link ∈ links result ↔ ∃ c ∈ done, c.link = link
  stored : ∀ source, (result.get? source).isSome ↔ ∃ c ∈ done, c.from.name = source
  typed : ∀ source byType, result.get? source = some byType → ∀ type,
    (byType.get? type).isSome ↔ ∃ c ∈ done, c.from.name = source ∧ c.type = type
  single : ∀ c ∈ done, ∀ d ∈ done, c.from.name = d.from.name → c.type = d.type

theorem Converted.empty : Converted [] .empty := by
  refine ⟨fun link => ?_, fun source => ?_, fun source byType h => ?_, fun c hc => ?_⟩
  · simp [mem_links]
  · simp
  · cases h
  · cases hc

theorem addToResult_eq_ok : addToResult result connection = .ok result' ↔
    connection.from.name ∉ objectPrototypeNames ∧
      ∃ outputs, (resultConnection result connection).get? connection.type = some outputs ∧
        result' = result.set connection.from.name
          ((resultConnection result connection).set connection.type
            (pushAt outputs connection.outputIndex
              ⟨connection.to.name, connection.type, connection.inputIndex⟩)) := by
  rw [addToResult]
  split_ifs with hname
  · simp [hname]
  · cases (resultConnection result connection).get? connection.type with
    | none => simp
    | some outputs => simp [hname, eq_comm]

theorem exists_ok_iff : (∃ result', addToResult result connection = .ok result') ↔
    connection.from.name ∉ objectPrototypeNames ∧
      ((resultConnection result connection).get? connection.type).isSome := by
  simp only [addToResult_eq_ok, Option.isSome_iff_exists]
  constructor
  · rintro ⟨_, hname, outputs, hget, -⟩
    exact ⟨hname, outputs, hget⟩
  · rintro ⟨hname, outputs, hget⟩
    exact ⟨_, hname, outputs, hget, rfl⟩

namespace Converted

/-- A connection can be added unless its source has a connection of another type. -/
theorem get?_type_iff (h : Converted done result) :
    ((resultConnection result connection).get? connection.type).isSome ↔
      ∀ c ∈ done, c.from.name = connection.from.name → c.type = connection.type := by
  rw [resultConnection]
  cases hget : result.get? connection.from.name with
  | none =>
    refine iff_of_true (by simp) fun c hc hsource => ?_
    have := (h.stored connection.from.name).mpr ⟨c, hc, hsource⟩
    rw [hget] at this
    cases this
  | some byType =>
    rw [Option.getD_some, h.typed _ _ hget]
    constructor
    · rintro ⟨d, hd, hsource, htype⟩ c hc hc'
      exact (h.single c hc d hd (hc'.trans hsource.symm)).trans htype
    · intro hall
      obtain ⟨d, hd, hsource⟩ := (h.stored connection.from.name).mp (by rw [hget]; rfl)
      exact ⟨d, hd, hsource, hall d hd hsource⟩

/-- Until a connection is added the object of its source holds what was added for the source. -/
theorem mem_outgoing_iff (_ : Converted done result) {out : Outgoing} :
    out ∈ outgoing (resultConnection result connection) ↔
      ⟨connection.from.name, out⟩ ∈ Workflows.links result := by
  rw [mem_links, resultConnection]
  cases hget : result.get? connection.from.name with
  | none =>
    simp only [Option.getD_none, mem_outgoing, get?_set, get?_empty]
    constructor
    · rintro ⟨outputs, hout, hmem⟩
      split_ifs at hout
      cases hout
      cases hmem
    · rintro ⟨byType, hbyType, -⟩
      cases hbyType
  | some byType => simp

/-- The other types of the source of a connection are those added before. -/
theorem get?_isSome_iff (h : Converted done result) {type : String} (ht : connection.type ≠ type) :
    ((resultConnection result connection).get? type).isSome ↔
      ∃ c ∈ done, c.from.name = connection.from.name ∧ c.type = type := by
  rw [resultConnection]
  cases hget : result.get? connection.from.name with
  | none =>
    refine iff_of_false (by simp [get?_set, Ne.symm ht]) ?_
    rintro ⟨c, hc, hsource, -⟩
    have := (h.stored connection.from.name).mpr ⟨c, hc, hsource⟩
    rw [hget] at this
    cases this
  | some byType => exact h.typed _ _ hget type

theorem add (h : Converted done result) (hr : addToResult result connection = .ok result') :
    Converted (done ++ [connection]) result' := by
  obtain ⟨hname, outputs, hget, rfl⟩ := addToResult_eq_ok.1 hr
  have hsame := h.get?_type_iff.1 (by rw [hget]; rfl)
  have mem {p : NodeConnection → Prop} : (∃ c ∈ done ++ [connection], p c) ↔
      (∃ c ∈ done, p c) ∨ p connection := by
    simp only [List.mem_append, List.mem_singleton, or_and_right, exists_or, exists_eq_left]
  refine ⟨fun link => ?_, fun source => ?_, fun source byType hbyType type => ?_, ?_⟩
  · obtain ⟨source, out⟩ := link
    rw [mem, ← h.links]
    by_cases hs : source = connection.from.name
    · subst hs
      rw [mem_links, get?_set_self]
      simp only [Option.some.injEq, exists_eq_left', mem_outgoing_pushAt hget, h.mem_outgoing_iff]
      refine or_congr_right ⟨?_, ?_⟩
      · rintro rfl
        rfl
      · intro he
        exact (Link.mk.inj he).2.symm
    · rw [mem_links, mem_links, get?_set_of_ne hs]
      exact (or_iff_left fun he => hs (Link.mk.inj he).1.symm).symm
  · rw [mem, ← h.stored, get?_set]
    split_ifs with hs
    · exact iff_of_true rfl (.inr hs.symm)
    · exact (or_iff_left (Ne.symm hs)).symm
  · rw [mem]
    rw [get?_set] at hbyType
    split_ifs at hbyType with hs
    · cases hbyType
      subst hs
      rw [get?_set]
      split_ifs with ht
      · exact iff_of_true rfl (.inr ⟨rfl, ht.symm⟩)
      · rw [h.get?_isSome_iff (Ne.symm ht)]
        exact (or_iff_left fun he => ht he.2.symm).symm
    · rw [h.typed source byType hbyType]
      exact (or_iff_left fun he => hs he.1.symm).symm
  · intro c hc d hd hsource
    simp only [List.mem_append, List.mem_singleton] at hc hd
    rcases hc with hc | rfl <;> rcases hd with hd | rfl
    · exact h.single c hc d hd hsource
    · exact hsame c hc hsource
    · exact (hsame d hd hsource.symm).symm
    · rfl

/-- What the loop leaves behind if it goes through. -/
theorem of_foldlM (h : Converted done result) {connections : List NodeConnection}
    (hr : connections.foldlM addToResult result = .ok result') :
    Converted (done ++ connections) result' ∧
      ∀ c ∈ connections, c.from.name ∉ objectPrototypeNames := by
  induction connections generalizing done result with
  | nil =>
    cases hr
    exact ⟨by rwa [List.append_nil], by simp⟩
  | cons connection connections ih =>
    rw [List.foldlM_cons] at hr
    cases hadd : addToResult result connection with
    | error e =>
      rw [hadd] at hr
      cases hr
    | ok added =>
      rw [hadd] at hr
      obtain ⟨hc, hnames⟩ := ih (h.add hadd) hr
      rw [List.append_assoc, List.singleton_append] at hc
      exact ⟨hc, List.forall_mem_cons.mpr ⟨(addToResult_eq_ok.mp hadd).1, hnames⟩⟩

/-- The loop goes through if no source has a name that every object inherits, and none has
connections of two types. -/
theorem exists_foldlM (h : Converted done result) (connections : List NodeConnection)
    (hnames : ∀ c ∈ connections, c.from.name ∉ objectPrototypeNames)
    (htypes : ∀ c ∈ done ++ connections, ∀ d ∈ done ++ connections,
      c.from.name = d.from.name → c.type = d.type) :
    ∃ result', connections.foldlM addToResult result = .ok result' := by
  induction connections generalizing done result with
  | nil => exact ⟨result, rfl⟩
  | cons connection connections ih =>
    obtain ⟨hname, hnames⟩ := List.forall_mem_cons.mp hnames
    obtain ⟨added, hadd⟩ := exists_ok_iff.mpr ⟨hname, h.get?_type_iff.mpr fun c hc =>
      htypes c (List.mem_append_left _ hc) connection
        (List.mem_append_right _ List.mem_cons_self)⟩
    rw [List.foldlM_cons, hadd]
    refine ih (h.add hadd) hnames ?_
    rwa [List.append_assoc, List.singleton_append]

end Converted

end ToWorkflow

/-! ## There and back -/

section RoundTrip

variable {workflow : IWorkflow}

/-- The conversions lose nothing: every connection has the type of the input that it leads to, a node
has connections of one type, two connections have two keys, and no node with connections has a name
that every object inherits. -/
structure IWorkflow.Convertible (workflow : IWorkflow) : Prop where
  target_type : ∀ link ∈ links workflow.connectionsBySourceNode,
    link.out.connection.type = link.out.type
  one_type : ∀ link ∈ links workflow.connectionsBySourceNode,
    ∀ link' ∈ links workflow.connectionsBySourceNode,
      link.source = link'.source → link.out.type = link'.out.type
  keys : ∀ link ∈ links workflow.connectionsBySourceNode,
    ∀ link' ∈ links workflow.connectionsBySourceNode, linkKey link = linkKey link' → link = link'
  names : ∀ link ∈ links workflow.connectionsBySourceNode, link.source ∉ objectPrototypeNames

theorem linkConnection_eq_some {link : Link} {connection : NodeConnection}
    (h : linkConnection workflow link = some connection) :
    connection.from.name = link.source ∧ connection.key = linkKey link ∧
      (link.out.connection.type = link.out.type ↔ connection.link = link) ∧
      connection.type = link.out.type := by
  obtain ⟨«from», hfrom, h⟩ := Option.bind_eq_some_iff.mp h
  obtain ⟨«to», hto, rfl⟩ := Option.map_eq_some_iff.mp h
  have hf := workflow.nodes_keyed _ _ hfrom
  have ht := workflow.nodes_keyed _ _ hto
  obtain ⟨source, type, outputIndex, target, targetType, inputIndex⟩ := link
  dsimp only at hf ht
  subst hf ht
  refine ⟨rfl, rfl, ?_, rfl⟩
  simp [link, eq_comm]

/-- The connections of a graph that was made from a workflow: one for every key. -/
structure Kept (workflow : IWorkflow) (kept : List NodeConnection) : Prop where
  mem : ∀ connection ∈ kept, ∃ link ∈ links workflow.connectionsBySourceNode,
    linkConnection workflow link = some connection
  exists_key : ∀ link ∈ links workflow.connectionsBySourceNode,
    ∃ connection ∈ kept, connection.key = linkKey link
  eq_of_key : ∀ c ∈ kept, ∀ d ∈ kept, c.key = d.key → c = d

theorem kept_values (h : workflow.ReferencesNodes) : Kept workflow
    ((empty : OrderedMap String NodeConnection).insertAll key
      (nodeConnections workflow)).values := by
  have hkeyed : (empty : OrderedMap String NodeConnection).Keyed key :=
    .empty
  refine ⟨fun connection hc => ?_, fun link hlink => ?_, fun c hc d hd hkey => ?_⟩
  · rcases mem_values_insertAll hc with hc | hc
    · exact absurd hc List.not_mem_nil
    · exact List.mem_filterMap.mp hc
  · obtain ⟨byType, hget, -⟩ := mem_links.mp hlink
    obtain ⟨«from», hfrom⟩ := Option.isSome_iff_exists.mp
      (h.1 link.source (mem_keys.mpr ⟨byType, hget⟩))
    obtain ⟨«to», hto⟩ := Option.isSome_iff_exists.mp (h.2 link hlink)
    have hsome : linkConnection workflow link = some ⟨«from», «to», link.out.type,
        link.out.outputIndex, link.out.connection.index⟩ := by
      rw [linkConnection, hfrom, hto]
      rfl
    obtain ⟨c, hc, hkey⟩ := hkeyed.exists_mem_values_insertAll
      (List.mem_filterMap.mpr ⟨link, hlink, hsome⟩)
    exact ⟨c, hc, hkey.trans (linkConnection_eq_some hsome).2.1⟩
  · have hc := (hkeyed.insertAll (nodeConnections workflow)).mem_values.mp hc
    rw [hkey, (hkeyed.insertAll (nodeConnections workflow)).mem_values.mp hd] at hc
    exact (Option.some.inj hc).symm

theorem linkKey_link (connection : NodeConnection) : linkKey connection.link = connection.key := rfl

/-- What the graph keeps is turned back into the connections of the workflow exactly if these are
convertible. -/
theorem Kept.foldlM_iff {kept : List NodeConnection} (h : Kept workflow kept) :
    (∃ result, kept.foldlM addToResult .empty = .ok result ∧
        ∀ link, link ∈ links result ↔ link ∈ links workflow.connectionsBySourceNode) ↔
      workflow.Convertible := by
  constructor
  · rintro ⟨result, hr, hlinks⟩
    obtain ⟨hc, hnames⟩ := Converted.empty.of_foldlM hr
    rw [List.nil_append] at hc
    have mem : ∀ link ∈ links workflow.connectionsBySourceNode, ∃ c ∈ kept, c.link = link :=
      fun link hlink => (hc.links link).mp ((hlinks link).mpr hlink)
    refine ⟨fun link hlink => ?_, fun link hlink link' hlink' hsource => ?_,
      fun link hlink link' hlink' hkey => ?_, fun link hlink => ?_⟩
    · obtain ⟨c, -, rfl⟩ := mem link hlink
      rfl
    · obtain ⟨c, hc', rfl⟩ := mem link hlink
      obtain ⟨d, hd, rfl⟩ := mem link' hlink'
      exact hc.single c hc' d hd hsource
    · obtain ⟨c, hc', rfl⟩ := mem link hlink
      obtain ⟨d, hd, rfl⟩ := mem link' hlink'
      rw [linkKey_link, linkKey_link] at hkey
      rw [h.eq_of_key c hc' d hd hkey]
    · obtain ⟨c, hc', rfl⟩ := mem link hlink
      exact hnames c hc'
  · intro hw
    obtain ⟨result, hr⟩ := Converted.empty.exists_foldlM kept
      (fun c hc => by
        obtain ⟨link, hlink, hsome⟩ := h.mem c hc
        rw [(linkConnection_eq_some hsome).1]
        exact hw.names link hlink)
      (fun c hc d hd hsource => by
        obtain ⟨link, hlink, hsome⟩ := h.mem c hc
        obtain ⟨link', hlink', hsome'⟩ := h.mem d hd
        obtain ⟨hf, -, -, ht⟩ := linkConnection_eq_some hsome
        obtain ⟨hf', -, -, ht'⟩ := linkConnection_eq_some hsome'
        rw [ht, ht']
        exact hw.one_type link hlink link' hlink' (hf.symm.trans (hsource.trans hf')))
    have hc := (Converted.empty.of_foldlM hr).1
    rw [List.nil_append] at hc
    refine ⟨result, hr, fun link => (hc.links link).trans ⟨?_, fun hlink => ?_⟩⟩
    · rintro ⟨c, hc', rfl⟩
      obtain ⟨link, hlink, hsome⟩ := h.mem c hc'
      rwa [(linkConnection_eq_some hsome).2.2.1.mp (hw.target_type link hlink)]
    · obtain ⟨c, hc', hkey⟩ := h.exists_key link hlink
      obtain ⟨link', hlink', hsome⟩ := h.mem c hc'
      obtain ⟨-, hkey', hl, -⟩ := linkConnection_eq_some hsome
      obtain rfl := hw.keys link' hlink' link hlink (hkey'.symm.trans hkey)
      exact ⟨c, hc', hl.mp (hw.target_type link' hlink')⟩

/-- The nodes of the graph make up the nodes of the workflow again. -/
theorem getNode_create (connections : IConnections) (name : String) :
    (IWorkflow.create (empty.addNodes
        ((objectEntries workflow.nodes).map Prod.snd)).nodes.values connections).getNode name =
      workflow.getNode name := by
  change ((empty : OrderedMap String INode).insertAll INode.name (empty.addNodes
    ((objectEntries workflow.nodes).map Prod.snd)).nodes.values).get? name = _
  rw [(nodes_keyed _).insertAll_values]
  exact get?_addNodes name

theorem roundTrip_eq (h : workflow.ReferencesNodes) : roundTrip workflow =
    (((empty : OrderedMap String NodeConnection).insertAll key
        (nodeConnections workflow)).values.foldlM addToResult .empty).map
      (IWorkflow.create
        (empty.addNodes ((objectEntries workflow.nodes).map Prod.snd)).nodes.values) := by
  rw [roundTrip, fromWorkflow_ok h]
  change toWorkflow _ = _
  rw [toWorkflow, toIConnections, foldl_setConnection_connections,
    foldl_setConnection_nodes, addNodes_connections]
  rfl

end RoundTrip

/-- A node whose items go to another one. -/
def pairWorkflow : IWorkflow :=
  .create [⟨"model", 0⟩, ⟨"agent", 1⟩]
    (OrderedMap.empty.set "model" (OrderedMap.empty.set "main" [none, some [⟨"agent", "main", 0⟩]]))

/-- The node is also the model of the other one. -/
def modelWorkflow : IWorkflow :=
  .create [⟨"model", 0⟩, ⟨"agent", 1⟩]
    (OrderedMap.empty.set "model" ((OrderedMap.empty.set "main" [some [⟨"agent", "main", 0⟩]]).set
      "ai_languageModel" [some [⟨"agent", "ai_languageModel", 0⟩]]))

end N8n.PartialExecution
