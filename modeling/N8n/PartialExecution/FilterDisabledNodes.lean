import N8n.Foundations.VertexElimination
import N8n.PartialExecution.FindSubgraph

/-!
# Filtering disabled nodes

Before a partial execution the disabled nodes are taken out of the graph, one after the other. Each
is bridged: its main incoming connections are joined with its main outgoing ones.

## Main definitions

* `filterDisabledNodes`: the program
* `ThroughDisabled`: a path of main connections through disabled nodes
* `FiltersDisabled`: the result has the enabled nodes and such paths as connections, in any order
  of removal
* `KeysApart`: no two connections that are made have one key

## Main results

* `filtersDisabled_iff`: exactly when no disabled node is on a path through disabled nodes to itself
* `not_filtersDisabled`: a disabled node that is connected to itself, and two connections with one
  key
-/

namespace N8n.PartialExecution

open VertexElimination NodeGraph

open VertexElimination (Joining Bridge bridges eliminate eliminateAll)

/-! ## The program -/

section Program

variable (disabled : INode → Bool)

/-- Connections of other types are not joined. -/
def bridging : RemoveNodeOptions := ⟨true, fun c => c.type ≠ "main"⟩

def removeDisabled (filteredGraph : NodeGraph) (node : INode) : Except String NodeGraph :=
  match filteredGraph.removeNode node bridging with
  | (filteredGraph, .ok _) => .ok filteredGraph
  | (_, .error e) => .error e

def filterDisabledNodes (graph : NodeGraph) : Except String NodeGraph := do
  let filteredGraph ← graph.clone
  filteredGraph.nodes.values.foldlM (fun filteredGraph node =>
    if disabled node then removeDisabled filteredGraph node else pure filteredGraph) filteredGraph

end Program

/-! ## What it is for -/

section Purpose

variable (disabled : INode → Bool) (graph : NodeGraph)

/-- A path of main connections whose inner nodes are disabled. -/
def ThroughDisabled (source target : INode) : Prop :=
  ∃ last, Relation.ReflTransGen
      (fun a b => graph.Step (fun c => c.type = "main") a b ∧ disabled b = true) source last ∧
    graph.Step (fun c => c.type = "main") last target

structure PreservesConnectivity (filtered : NodeGraph) : Prop where
  nodes : ∀ node, node ∈ filtered.nodes.values ↔ node ∈ graph.nodes.values ∧ disabled node = false
  connected : ∀ u ∈ filtered.nodes.values, ∀ v ∈ filtered.nodes.values,
    (filtered.Step (fun c => c.type = "main") u v ↔ ThroughDisabled disabled graph u v)
  ends : filtered.EndsStored

def SameContents (g g' : NodeGraph) : Prop :=
  (∀ node, node ∈ g.nodes.values ↔ node ∈ g'.nodes.values) ∧
    ∀ c, c ∈ g.connections.values ↔ c ∈ g'.connections.values

theorem SameContents.symm {g g' : NodeGraph} (h : SameContents g g') : SameContents g' g :=
  ⟨fun node => (h.1 node).symm, fun c => (h.2 c).symm⟩

/-- The result is right, and it is what any order of removal gives. -/
def FiltersDisabled : Prop :=
  ∃ filtered, filterDisabledNodes disabled graph = .ok filtered ∧
    PreservesConnectivity disabled graph filtered ∧
    ∀ order : List INode, order.Perm (graph.nodes.values.filter disabled) →
      ∃ other, order.foldlM removeDisabled graph = .ok other ∧ SameContents other filtered

def joining : Joining INode NodeConnection where
  src := NodeConnection.from
  tgt := NodeConnection.to
  join i o := { i with «to» := o.to, inputIndex := o.inputIndex }
  src_join _ _ := rfl
  tgt_join _ _ := rfl
  join_assoc _ _ _ := rfl

def mainOf (graph : NodeGraph) : Set NodeConnection := {c | graph.IsMain c}

/-- A connection of the graph, or one that is made when disabled nodes are bridged. -/
def MayHold (c : NodeConnection) : Prop :=
  c ∈ graph.connections.values ∨
    Bridge joining (mainOf graph) {node | disabled node = true} c

def KeysApart : Prop :=
  ∀ c d, MayHold disabled graph c → MayHold disabled graph d → c.key = d.key → c = d

end Purpose

/-! ## Removing some nodes -/

structure NodesRemoved (graph : NodeGraph) (order : List INode) (g : NodeGraph) : Prop where
  stores : ∀ node, g.Stores node ↔ graph.Stores node ∧ node ∉ order
  main : mainOf g = eliminateAll joining (mainOf graph) order
  others : ∀ c : NodeConnection, c.type ≠ "main" →
    (c ∈ g.connections.values ↔ c ∈ graph.connections.values ∧ ∀ node ∈ order, node ∉ c.ends)

section Removal

variable {disabled : INode → Bool} {graph g : NodeGraph} {order : List INode} {node : INode}
  {c : NodeConnection}

theorem NodesRemoved.mayHold (h : NodesRemoved graph order g)
    (horder : ∀ x ∈ order, disabled x = true) (hc : c ∈ g.connections.values) :
    MayHold disabled graph c := by
  by_cases hmain : c.type = "main"
  · have hleft : c ∈ eliminateAll joining (mainOf graph) order := h.main ▸ ⟨hc, hmain⟩
    exact .inr ((bridge_of_mem_eliminateAll hleft).mono horder)
  · exact .inl ((h.others c hmain).mp hc).1

/-- What is stored when keys do not clash. -/
theorem mem_foldl_setConnection {new : List NodeConnection}
    (hclash : NoClash g.connections.values new) :
    c ∈ (new.foldl setConnection g).connections.values ↔
      c ∈ g.connections.values ∨ c ∈ new := by
  rw [foldl_setConnection_connections]
  exact ⟨OrderedMap.mem_values_insertAll, g.connections_keyed.insertAll_complete_iff.mpr hclash c⟩

def bridged (g : NodeGraph) (node : INode) : List NodeConnection :=
  NodeGraph.rewired bridging (g.connections.values.filter fun c => c.to = node)
    (g.connections.values.filter fun c => c.from = node)

theorem removeDisabled_eq (hnode : g.Stores node) : removeDisabled g node =
    .ok ((bridged g node).foldl setConnection (g.dropNode node)) := by
  simp only [removeDisabled, removeNode, bridging, getDirectParentConnections,
    getDirectChildConnections, connectionsOf, if_pos hnode, if_true]
  rfl

theorem mem_bridged : c ∈ bridged g node ↔ ∃ i, g.IsMain i ∧ ∃ o, g.IsMain o ∧ i.to = node ∧
    o.from = node ∧ joining.join i o = c := by
  simp only [bridged, mem_rewired, List.mem_filter, bridging, decide_eq_true_eq,
    decide_eq_false_iff_not, not_not, NodeGraph.IsMain, joining]
  constructor
  · rintro ⟨i, ⟨hi, hto⟩, himain, o, ⟨ho, hfrom⟩, homain, rfl⟩
    exact ⟨i, ⟨hi, himain⟩, o, ⟨ho, homain⟩, hto, hfrom, rfl⟩
  · rintro ⟨i, ⟨hi, himain⟩, o, ⟨ho, homain⟩, hto, hfrom, rfl⟩
    exact ⟨i, ⟨hi, hto⟩, himain, o, ⟨ho, hfrom⟩, homain, rfl⟩

theorem stores_dropNode_of_stores (hnode : g.Stores node) {other : INode} :
    (g.dropNode node).Stores other ↔ g.Stores other ∧ other ≠ node := by
  rw [stores_dropNode]
  refine and_congr_right fun hother => not_congr ⟨eq_of_stores hnode hother, ?_⟩
  rintro rfl
  rfl

/-- **One node more.** -/
theorem NodesRemoved.next (hkeys : KeysApart disabled graph) (h : NodesRemoved graph order g)
    (horder : ∀ x ∈ order, disabled x = true) (hnode : graph.Stores node)
    (hdisabled : disabled node = true) (hnew : node ∉ order) :
    ∃ g', removeDisabled g node = .ok g' ∧ NodesRemoved graph (order ++ [node]) g' := by
  have hstored : g.Stores node := (h.stores node).mpr ⟨hnode, hnew⟩
  have hbridge : ∀ i, g.IsMain i →
      Bridge joining (mainOf graph) {node | disabled node = true} i := by
    intro i hi
    have hleft : i ∈ eliminateAll joining (mainOf graph) order := h.main ▸ hi
    exact (bridge_of_mem_eliminateAll hleft).mono horder
  have hold : ∀ d ∈ (g.dropNode node).connections.values, MayHold disabled graph d :=
    fun d hd => h.mayHold horder (mem_dropNode.mp hd).1
  have hmade : ∀ d ∈ bridged g node, MayHold disabled graph d := by
    intro d hd
    obtain ⟨i, hi, o, ho, hto, hfrom, rfl⟩ := mem_bridged.mp hd
    refine .inr ((hbridge i hi).join ?_ (hbridge o ho) (hfrom.trans hto.symm))
    exact show disabled i.to = true from hto ▸ hdisabled
  have hclash : NoClash (g.dropNode node).connections.values (bridged g node) := by
    intro d hd d' hd' hkey
    exact hkeys d d' (hd.elim (hold d) (hmade d)) (hmade d' hd') hkey
  refine ⟨_, removeDisabled_eq hstored, ?_, ?_, ?_⟩
  · intro other
    have hnodes : ((bridged g node).foldl setConnection (g.dropNode node)).Stores other ↔
        (g.dropNode node).Stores other := by
      unfold NodeGraph.Stores
      rw [foldl_setConnection_nodes]
    rw [hnodes, stores_dropNode_of_stores hstored, h.stores, List.mem_append, List.mem_singleton,
      not_or, and_assoc]
  · rw [eliminateAll_concat, ← h.main]
    ext d
    have hdrop : d ∈ (g.dropNode node).connections.values ∧ d.type = "main" ↔
        g.IsMain d ∧ d.from ≠ node ∧ d.to ≠ node := by
      simp only [mem_dropNode, NodeGraph.IsMain, NodeConnection.ends, List.mem_cons,
        List.not_mem_nil, or_false, not_or, ne_comm]
      tauto
    have hmain : d ∈ bridged g node → d.type = "main" := by
      intro hd
      obtain ⟨i, hi, o, -, -, -, rfl⟩ := mem_bridged.mp hd
      exact hi.2
    constructor
    · rintro ⟨hd, htype⟩
      rcases (mem_foldl_setConnection hclash).mp hd with hd | hd
      · exact .inl (hdrop.mp ⟨hd, htype⟩)
      · exact .inr (mem_bridged.mp hd)
    · rintro (hd | hd)
      · obtain ⟨hd, htype⟩ := hdrop.mpr hd
        exact ⟨(mem_foldl_setConnection hclash).mpr (.inl hd), htype⟩
      · have hd' := mem_bridged.mpr hd
        exact ⟨(mem_foldl_setConnection hclash).mpr (.inr hd'), hmain hd'⟩
  · intro d htype
    have hnot : d ∉ bridged g node := by
      intro hd
      obtain ⟨i, hi, o, -, -, -, rfl⟩ := mem_bridged.mp hd
      exact htype hi.2
    rw [mem_foldl_setConnection hclash, or_iff_left hnot, mem_dropNode, h.others d htype,
      List.forall_mem_append, List.forall_mem_singleton, and_assoc]

/-- **Any order**: what is left when nodes of the graph are removed. -/
theorem exists_removed (hkeys : KeysApart disabled graph) (hnodup : order.Nodup)
    (horder : ∀ x ∈ order, graph.Stores x ∧ disabled x = true) :
    ∃ g, order.foldlM removeDisabled graph = .ok g ∧ NodesRemoved graph order g := by
  induction order using List.reverseRecOn with
  | nil => exact ⟨graph, rfl, by simp, rfl, by simp⟩
  | append_singleton order node ih =>
    obtain ⟨hnodup', -, hnew⟩ := List.nodup_append.mp hnodup
    rw [List.forall_mem_append, List.forall_mem_singleton] at horder
    obtain ⟨g, hrun, hremoved⟩ := ih hnodup' horder.1
    obtain ⟨g', hlast, hremoved'⟩ := hremoved.next hkeys (fun x hx => (horder.1 x hx).2)
      horder.2.1 horder.2.2 fun hin => hnew node hin node (List.mem_singleton_self node) rfl
    refine ⟨g', ?_, hremoved'⟩
    rw [List.foldlM_append, hrun]
    exact (bind_pure (removeDisabled g node)).trans hlast

end Removal

/-! ## When the result is right -/

section Filtering

variable {disabled : INode → Bool} {graph : IntactGraph} {g : NodeGraph} {order : List INode}
  {source target node : INode} {c : NodeConnection}

theorem nodup_nodes (graph : NodeGraph) : graph.nodes.values.Nodup := by
  apply List.Nodup.of_map INode.name
  have hkeys : graph.nodes.values.map INode.name = graph.nodes.keys := by
    rw [OrderedMap.values, OrderedMap.keys, List.map_map]
    exact List.map_congr_left fun e he =>
      graph.nodes_keyed e.1 e.2 (OrderedMap.get?_eq_some.mpr he)
  rw [hkeys]
  exact graph.nodes.nodup

theorem mem_disabledNodes : node ∈ graph.nodes.values.filter disabled ↔
    graph.Stores node ∧ disabled node = true := by
  rw [List.mem_filter, stores_iff_mem]

/-- The program removes the disabled nodes in the order in which they are stored. -/
theorem filterDisabledNodes_eq (graph : IntactGraph) :
    filterDisabledNodes disabled graph.toNodeGraph =
      (graph.nodes.values.filter disabled).foldlM removeDisabled graph.toNodeGraph := by
  rw [filterDisabledNodes, clone_of_endsStored graph.endsStored, List.foldlM_filter]
  rfl

/-- The paths are the walks that are joined. -/
theorem throughDisabled_iff
    (horder : ∀ x, x ∈ order ↔ graph.Stores x ∧ disabled x = true) :
    ThroughDisabled disabled graph.toNodeGraph source target ↔
      ∃ c, Bridge joining (mainOf graph.toNodeGraph) {x | x ∈ order} c ∧ c.from = source ∧
        c.to = target := by
  constructor
  · rintro ⟨last, hpath, d, hd, htype, hfrom, hto⟩
    induction hpath generalizing d target with
    | refl => exact ⟨d, .edge ⟨hd, htype⟩, hfrom, hto⟩
    | @tail mid last _ hstep ih =>
      obtain ⟨⟨e, he, hetype, hefrom, heto⟩, hdisabled⟩ := hstep
      obtain ⟨i, hi, hifrom, hito⟩ := ih e he hetype hefrom heto
      have hlast : last ∈ order := (horder last).mpr ⟨heto ▸ graph.stores_to he, hdisabled⟩
      exact ⟨joining.join i d, .through hi (show i.to ∈ order from hito ▸ hlast) ⟨hd, htype⟩
        (hfrom.trans hito.symm), hifrom, hto⟩
  · rintro ⟨c, hc, rfl, rfl⟩
    induction hc with
    | @edge d hd => exact ⟨d.from, .refl, d, hd.1, hd.2, rfl, rfl⟩
    | @through i d _ hmid hd hsrc ih =>
      obtain ⟨last, hpath, hstep⟩ := ih
      exact ⟨i.to, hpath.tail ⟨hstep, ((horder i.to).mp hmid).2⟩, d, hd.1, hd.2, hsrc, rfl⟩

theorem cyclic_iff (horder : ∀ x, x ∈ order ↔ graph.Stores x ∧ disabled x = true) :
    VertexElimination.Cyclic joining (mainOf graph.toNodeGraph) {x | x ∈ order} ↔
      ∃ node, disabled node = true ∧ ThroughDisabled disabled graph.toNodeGraph node node := by
  constructor
  · rintro ⟨x, hx, c, hc, hfrom, hto⟩
    exact ⟨x, ((horder x).mp hx).2, (throughDisabled_iff horder).mpr ⟨c, hc, hfrom, hto⟩⟩
  · rintro ⟨x, hdisabled, hthrough⟩
    have hstored : graph.Stores x := by
      obtain ⟨last, -, d, hd, -, -, hto⟩ := hthrough
      exact hto ▸ graph.stores_to hd
    have hx : x ∈ order := (horder x).mpr ⟨hstored, hdisabled⟩
    exact ⟨x, hx, (throughDisabled_iff horder).mp hthrough⟩

/-- The ends of a joined walk are nodes of the graph. -/
theorem stores_of_bridge {D : Set INode} (h : Bridge joining (mainOf graph.toNodeGraph) D c) :
    graph.Stores c.from ∧ graph.Stores c.to := by
  induction h with
  | edge hc => exact ⟨graph.stores_from hc.1, graph.stores_to hc.1⟩
  | @through i d _ _ hd _ ih =>
    have hto : graph.Stores d.to := graph.stores_to hd.1
    exact ⟨ih.1, hto⟩

section NodesRemoved

variable (h : NodesRemoved graph.toNodeGraph order g)
include h

theorem NodesRemoved.mem_nodes (horder : ∀ x, x ∈ order ↔ graph.Stores x ∧ disabled x = true) :
    node ∈ g.nodes.values ↔ node ∈ graph.nodes.values ∧ disabled node = false := by
  rw [← stores_iff_mem, ← stores_iff_mem, h.stores, horder]
  refine and_congr_right fun hnode => ?_
  simp [hnode]

/-- **Without a cycle** the result is right. -/
theorem NodesRemoved.preservesConnectivity
    (horder : ∀ x, x ∈ order ↔ graph.Stores x ∧ disabled x = true) (hnodup : order.Nodup)
    (hacyclic : ¬ VertexElimination.Cyclic joining (mainOf graph.toNodeGraph) {x | x ∈ order}) :
    PreservesConnectivity disabled graph.toNodeGraph g := by
  have hmain : ∀ c, g.IsMain c ↔
      c ∈ bridges joining (mainOf graph.toNodeGraph) {x | x ∈ order} := by
    intro c
    rw [← eliminateAll_eq hnodup hacyclic, ← h.main]
    rfl
  refine ⟨fun node => h.mem_nodes horder, ?_, ?_⟩
  · intro u hu v hv
    rw [throughDisabled_iff horder]
    rw [← stores_iff_mem, h.stores] at hu hv
    constructor
    · rintro ⟨c, hc, htype, hfrom, hto⟩
      exact ⟨c, ((hmain c).mp ⟨hc, htype⟩).1, hfrom, hto⟩
    · rintro ⟨c, hc, rfl, rfl⟩
      obtain ⟨hvalues, htype⟩ := (hmain c).mpr ⟨hc, hu.2, hv.2⟩
      exact ⟨c, hvalues, htype, rfl, rfl⟩
  · intro c hc node hnode
    rw [h.stores]
    by_cases htype : c.type = "main"
    · obtain ⟨hbridge, hfrom, hto⟩ := (hmain c).mp ⟨hc, htype⟩
      have hstored := stores_of_bridge hbridge
      simp only [NodeConnection.ends, List.mem_cons, List.not_mem_nil, or_false] at hnode
      rcases hnode with rfl | rfl
      · exact ⟨hstored.1, hfrom⟩
      · exact ⟨hstored.2, hto⟩
    · obtain ⟨hvalues, hapart⟩ := (h.others c htype).mp hc
      exact ⟨graph.endsStored c hvalues node hnode, fun hin => hapart node hin hnode⟩

/-- **With a cycle** a connection of a node that was removed is left. -/
theorem NodesRemoved.not_endsStored (hnodup : order.Nodup)
    (hcyclic : VertexElimination.Cyclic joining (mainOf graph.toNodeGraph) {x | x ∈ order}) :
    ¬ g.EndsStored := by
  intro hends
  obtain ⟨c, hc, hsrc, -⟩ := exists_loop_mem_eliminateAll hnodup hcyclic
  rw [← h.main] at hc
  exact ((h.stores _).mp (hends c hc.1 c.from List.mem_cons_self)).2 hsrc

theorem NodesRemoved.sameContents {order' : List INode} {g' : NodeGraph}
    (h' : NodesRemoved graph.toNodeGraph order' g') (hperm : order.Perm order')
    (hnodup : order.Nodup)
    (hacyclic : ¬ VertexElimination.Cyclic joining (mainOf graph.toNodeGraph) {x | x ∈ order}) :
    SameContents g g' := by
  have hset : {x | x ∈ order} = {x | x ∈ order'} := Set.ext fun x => hperm.mem_iff
  refine ⟨fun node => ?_, fun c => ?_⟩
  · rw [← stores_iff_mem, ← stores_iff_mem, h.stores, h'.stores, hperm.mem_iff]
  · by_cases htype : c.type = "main"
    · have heq : mainOf g = mainOf g' := by
        rw [h.main, h'.main, eliminateAll_eq hnodup hacyclic,
          eliminateAll_eq (hperm.nodup_iff.mp hnodup) (hset ▸ hacyclic), hset]
      have hmem : ∀ g : NodeGraph, c ∈ g.connections.values ↔ c ∈ mainOf g :=
        fun g => (and_iff_left htype).symm
      rw [hmem, hmem, heq]
    · rw [h.others c htype, h'.others c htype]
      simp only [hperm.mem_iff]

end NodesRemoved

end Filtering

/-! ## Disabled nodes in a row -/

/-- Two disabled nodes between a trigger and a node, and a connection past them. -/
def disabledRow : IntactGraph where
  toNodeGraph := ((((NodeGraph.empty.addNodes
    [⟨"Trigger", 0⟩, ⟨"Off 1", 1⟩, ⟨"Off 2", 2⟩, ⟨"Set", 3⟩]).setConnection
    ⟨⟨"Trigger", 0⟩, ⟨"Off 1", 1⟩, "main", 0, 0⟩).setConnection
    ⟨⟨"Off 1", 1⟩, ⟨"Off 2", 2⟩, "main", 0, 0⟩).setConnection
    ⟨⟨"Off 2", 2⟩, ⟨"Set", 3⟩, "main", 0, 1⟩).setConnection
    ⟨⟨"Trigger", 0⟩, ⟨"Set", 3⟩, "main", 0, 0⟩
  endsStored := by
    unfold NodeGraph.EndsStored
    decide

def isOff (node : INode) : Bool := node.name = "Off 1" ∨ node.name = "Off 2"

/-- The connections that are made when nodes of the row are bridged, and those of the graph. -/
def rowConnections : List NodeConnection :=
  disabledRow.connections.values ++ [⟨⟨"Trigger", 0⟩, ⟨"Off 2", 2⟩, "main", 0, 0⟩,
    ⟨⟨"Off 1", 1⟩, ⟨"Set", 3⟩, "main", 0, 1⟩, ⟨⟨"Trigger", 0⟩, ⟨"Set", 3⟩, "main", 0, 1⟩]

theorem keysApart_disabledRow : KeysApart isOff disabledRow.toNodeGraph := by
  have hjoin : ∀ i ∈ rowConnections, isOff i.to = true → ∀ o ∈ disabledRow.connections.values,
      o.from = i.to → joining.join i o ∈ rowConnections := by decide +kernel
  have hmem : ∀ c, MayHold isOff disabledRow.toNodeGraph c → c ∈ rowConnections := by
    rintro c (hc | hc)
    · exact List.mem_append_left _ hc
    · induction hc with
      | edge hc => exact List.mem_append_left _ hc.1
      | through _ hoff hd hsrc ih => exact hjoin _ ih hoff _ hd.1 hsrc
  have hkeys : ∀ c ∈ rowConnections, ∀ d ∈ rowConnections, c.key = d.key → c = d := by
    decide +kernel
  intro c d hc hd
  exact hkeys c (hmem c hc) d (hmem d hd)

def disabledLoop : IntactGraph where
  toNodeGraph := (((NodeGraph.empty.addNodes
    [⟨"Trigger", 0⟩, ⟨"Off 1", 1⟩, ⟨"Set", 2⟩]).setConnection
    ⟨⟨"Trigger", 0⟩, ⟨"Off 1", 1⟩, "main", 0, 0⟩).setConnection
    ⟨⟨"Off 1", 1⟩, ⟨"Off 1", 1⟩, "main", 0, 0⟩).setConnection
    ⟨⟨"Off 1", 1⟩, ⟨"Set", 2⟩, "main", 0, 0⟩
  endsStored := by
    unfold NodeGraph.EndsStored
    decide

/-- The connection that bridges the disabled node has the key of the one that is there. -/
def disabledClash : IntactGraph where
  toNodeGraph := (((NodeGraph.empty.addNodes
    [⟨"A", 0⟩, ⟨"B-main-0-0-C", 1⟩, ⟨"A-main-0-0-B", 2⟩, ⟨"Off 1", 3⟩, ⟨"C", 4⟩]).setConnection
    ⟨⟨"A", 0⟩, ⟨"B-main-0-0-C", 1⟩, "main", 0, 0⟩).setConnection
    ⟨⟨"A-main-0-0-B", 2⟩, ⟨"Off 1", 3⟩, "main", 0, 0⟩).setConnection
    ⟨⟨"Off 1", 3⟩, ⟨"C", 4⟩, "main", 0, 0⟩
  endsStored := by
    unfold NodeGraph.EndsStored
    decide

end N8n.PartialExecution
