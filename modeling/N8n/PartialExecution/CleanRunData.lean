import Mathlib.Data.List.Basic
import N8n.PartialExecution.GraphSearch
import N8n.PartialExecution.SourceDataGroups

/-!
# Cleaning run data

Before nodes are run again the run data of what comes after them is removed. The sub-nodes of the
nodes that are cleaned are found by climbing all connections that lead to them, of which those of
the main type are skipped only after they were climbed. So the sub-nodes of nodes before a cleaned
node are cleaned as well.

## Main definitions

* `cleanRunData`: the run data without the nodes that are cleaned, as an object of its own
* `Reruns`: the nodes that are run again, with their sub-nodes
* `Cleans`: exactly these, and what is not in the graph, are removed

## Main results

* `cleanRunData_eq`: what the program removes
* `cleans_iff_sparesUpstream`: when that is right
* `not_cleans`: an agent before the node that is cleaned
-/

namespace N8n.PartialExecution

variable {α : Type} {node : INode}

/-! ## The program -/

abbrev RunDataObjects (α : Type) := List (IRunData α)

/-- `delete runData[nodeName]` -/
def deleteRunData (object : ℕ) (objects : RunDataObjects α) (nodeName : String) :
    RunDataObjects α :=
  objects.modify object fun runData => runData.delete nodeName

section Program

variable (graph : NodeGraph) (object : ℕ)

/-- Delete a node and the sources of the connections to it that are not of the main type. -/
def cleanNode (objects : RunDataObjects α) (node : INode) : Except String (RunDataObjects α) := do
  let objects := deleteRunData object objects node.name
  let subNodeConnections ← graph.getParentConnections node
  pure ((subNodeConnections.filter fun c => c.type ≠ "main").foldl
    (fun objects c => deleteRunData object objects c.from.name) objects)

def cleanNodeToClean (objects : RunDataObjects α) (nodeToClean : INode) :
    Except String (RunDataObjects α) := do
  let objects := deleteRunData object objects nodeToClean.name
  let children ← graph.getChildren nodeToClean
  (nodeToClean :: children).foldlM (cleanNode graph object) objects

end Program

/-- The objects afterwards, and the address of the result. -/
def cleanRunData (objects : RunDataObjects α) (runData : ℕ) (graph : NodeGraph)
    (nodesToClean : List INode) : Except String (RunDataObjects α × ℕ) := do
  let newRunData := objects.length
  let objects := objects ++ [(objects[runData]?).getD .empty]
  let objects ← nodesToClean.foldlM (cleanNodeToClean graph newRunData) objects
  let nodeNames := ((objects[newRunData]?).getD .empty).keys
  let objects := (nodeNames.filter fun nodeName => (graph.nodes.get? nodeName).isNone).foldl
    (deleteRunData newRunData) objects
  pure (objects, newRunData)

/-! ## Statement -/

section Statement

variable (graph : NodeGraph) (nodesToClean : List INode)

def After (node : INode) : Prop :=
  node ∈ nodesToClean ∨ ∃ start ∈ nodesToClean, graph.Descends start node

def Reruns (node : INode) : Prop :=
  ∃ root, After graph nodesToClean root ∧ graph.Path OfSubNode node root

def ToRemove (nodeName : String) : Prop :=
  (∃ node, Reruns graph nodesToClean node ∧ node.name = nodeName) ∨
    graph.nodes.get? nodeName = none

end Statement

/-! ## Removing entries -/

section Removes

open Classical

/-- The entries of some names are gone, and the others are as they were. -/
def Removes (removed : String → Prop) (runData cleaned : IRunData α) : Prop :=
  cleaned.entries = runData.entries.filter fun entry => ¬ removed entry.1

variable {β : Type} {runData mid cleaned : IRunData α} {p q : String → Prop}

theorem Removes.trans (h : Removes p runData mid) (h' : Removes q mid cleaned) :
    Removes (fun name => p name ∨ q name) runData cleaned := by
  unfold Removes at *
  rw [h', h, List.filter_filter]
  refine List.filter_congr fun entry _ => ?_
  by_cases hp : p entry.1 <;> by_cases hq : q entry.1 <;> simp [hp, hq]

theorem Removes.of_iff (h : Removes p runData cleaned)
    (hpq : ∀ entry ∈ runData.entries, p entry.1 ↔ q entry.1) : Removes q runData cleaned := by
  unfold Removes at *
  rw [h]
  exact List.filter_congr fun entry hentry => by simp [hpq entry hentry]

theorem removes_none (runData : IRunData α) : Removes (fun _ => False) runData runData := by
  unfold Removes
  simp

theorem removes_delete (runData : IRunData α) (name : String) :
    Removes (· = name) runData (runData.delete name) := by
  unfold Removes
  rw [OrderedMap.entries_delete]
  exact List.filter_congr fun entry _ => by simp

theorem Removes.eq_of_removes {again : IRunData α} (h : Removes p runData cleaned)
    (h' : Removes p cleaned again) : again = cleaned := by
  refine OrderedMap.eq_of_entries ?_
  unfold Removes at *
  rw [h', h, List.filter_filter]
  exact List.filter_congr fun entry _ => by simp

theorem Removes.get?_eq (h : Removes p runData cleaned) (name : String) :
    cleaned.get? name = if p name then none else runData.get? name := by
  apply Option.ext
  intro runs
  rw [OrderedMap.get?_eq_some, h, List.mem_filter]
  split
  next hp => simp [hp]
  next hp => simp [hp, OrderedMap.get?_eq_some]

variable {objects : RunDataObjects α} {f : RunDataObjects α → β → Except String (RunDataObjects α)}
  {removed : β → String → Prop} {xs : List β}

theorem deleteRunData_append (objects : RunDataObjects α) (runData : IRunData α) (name : String) :
    deleteRunData objects.length (objects ++ [runData]) name =
      objects ++ [runData.delete name] := by
  unfold deleteRunData
  rw [List.modify_eq_take_cons_drop (by simp), List.take_left, List.getElem_concat_length rfl]
  simp

/-- A loop whose rounds remove entries of the newest object. -/
theorem foldlM_removes (h : ∀ x ∈ xs, ∀ runData, ∃ cleaned,
    f (objects ++ [runData]) x = .ok (objects ++ [cleaned]) ∧ Removes (removed x) runData cleaned)
    (runData : IRunData α) : ∃ cleaned,
      xs.foldlM f (objects ++ [runData]) = .ok (objects ++ [cleaned]) ∧
        Removes (fun name => ∃ x ∈ xs, removed x name) runData cleaned := by
  induction xs generalizing runData with
  | nil => exact ⟨runData, rfl, (removes_none runData).of_iff (by simp)⟩
  | cons x xs ih =>
    obtain ⟨mid, hmid, hremoved⟩ := h x List.mem_cons_self runData
    obtain ⟨cleaned, hrun, hrest⟩ := ih (fun y hy => h y (List.mem_cons_of_mem _ hy)) mid
    refine ⟨cleaned, ?_, (hremoved.trans hrest).of_iff (by simp)⟩
    rw [List.foldlM_cons, hmid]
    exact hrun

theorem foldl_deleteRunData (names : List String) (objects : RunDataObjects α)
    (runData : IRunData α) : ∃ cleaned, names.foldl (deleteRunData objects.length)
      (objects ++ [runData]) = objects ++ [cleaned] ∧ Removes (· ∈ names) runData cleaned := by
  induction names generalizing runData with
  | nil => exact ⟨runData, rfl, (removes_none runData).of_iff (by simp)⟩
  | cons name names ih =>
    obtain ⟨cleaned, hrun, hrest⟩ := ih (runData.delete name)
    refine ⟨cleaned, ?_, ((removes_delete runData name).trans hrest).of_iff (by simp)⟩
    rw [List.foldl_cons, deleteRunData_append]
    exact hrun

end Removes

/-! ## What the program removes -/

section Program

variable {graph : IntactGraph} {objects : RunDataObjects α} {nodesToClean : List INode}

def ClearedWith (graph : NodeGraph) (node : INode) (name : String) : Prop :=
  name = node.name ∨ ∃ c ∈ graph.connections.values, OfSubNode c ∧
    graph.Path (fun _ => True) c.to node ∧ c.from.name = name

theorem cleanNode_removes (objects : RunDataObjects α) (hnode : graph.Stores node)
    (runData : IRunData α) : ∃ cleaned,
      cleanNode graph.toNodeGraph objects.length (objects ++ [runData]) node =
        .ok (objects ++ [cleaned]) ∧
      Removes (ClearedWith graph.toNodeGraph node) runData cleaned := by
  obtain ⟨connections, hrun, hmem⟩ := graph.mem_getParentConnections hnode
  obtain ⟨cleaned, hfold, hremoved⟩ := foldl_deleteRunData
    ((connections.filter fun c => c.type ≠ "main").map fun c => c.from.name) objects
    (runData.delete node.name)
  refine ⟨cleaned, ?_, ((removes_delete runData node.name).trans hremoved).of_iff ?_⟩
  · rw [cleanNode, hrun, deleteRunData_append]
    rw [List.foldl_map] at hfold
    exact congrArg Except.ok hfold
  · intro entry _
    simp only [ClearedWith, OfSubNode, List.mem_map, List.mem_filter, hmem, decide_eq_true_eq,
      and_assoc]
    refine or_congr_right (exists_congr fun c => and_congr_right fun _ => ?_)
    exact and_left_comm

theorem cleanNodeToClean_removes (objects : RunDataObjects α) (hnode : graph.Stores node)
    (runData : IRunData α) : ∃ cleaned,
      cleanNodeToClean graph.toNodeGraph objects.length (objects ++ [runData]) node =
        .ok (objects ++ [cleaned]) ∧
      Removes (fun name => ∃ root, (root = node ∨ graph.Descends node root) ∧
        ClearedWith graph.toNodeGraph root name) runData cleaned := by
  obtain ⟨children, hrun, hmem⟩ := graph.mem_getChildren hnode
  have hstored : ∀ root ∈ node :: children, graph.Stores root := by
    intro root hroot
    rcases List.mem_cons.mp hroot with rfl | hroot
    · exact hnode
    · exact graph.stores_of_descends ((hmem root).mp hroot)
  obtain ⟨cleaned, hfold, hremoved⟩ := foldlM_removes
    (fun root hroot runData => cleanNode_removes objects (hstored root hroot) runData)
    (runData.delete node.name)
  refine ⟨cleaned, ?_, ((removes_delete runData node.name).trans hremoved).of_iff ?_⟩
  · rw [cleanNodeToClean, hrun, deleteRunData_append]
    exact hfold
  · intro entry _
    simp only [List.mem_cons, hmem]
    constructor
    · rintro (hname | hroot)
      · exact ⟨node, .inl rfl, .inl hname⟩
      · exact hroot
    · exact fun hroot => .inr hroot

def Removed (graph : NodeGraph) (nodesToClean : List INode) (name : String) : Prop :=
  (∃ root, After graph nodesToClean root ∧ ClearedWith graph root name) ∨
    graph.nodes.get? name = none

/-- **What the program removes**, from a copy of the run data. -/
theorem cleanRunData_eq (hnodes : ∀ node ∈ nodesToClean, graph.Stores node) {object : ℕ}
    {runData : IRunData α} (hobject : objects[object]? = some runData) :
    ∃ cleaned, cleanRunData objects object graph.toNodeGraph nodesToClean =
        .ok (objects ++ [cleaned], objects.length) ∧
      Removes (Removed graph.toNodeGraph nodesToClean) runData cleaned := by
  obtain ⟨mid, hloop, hmid⟩ := foldlM_removes
    (fun node hnode runData => cleanNodeToClean_removes objects (hnodes node hnode)
      runData) runData
  obtain ⟨cleaned, hfold, hcleaned⟩ := foldl_deleteRunData
    (mid.keys.filter fun name => (graph.nodes.get? name).isNone) objects mid
  refine ⟨cleaned, ?_, ?_⟩
  · unfold cleanRunData
    have hlast : (objects ++ [mid])[objects.length]? = some mid := by simp
    simp only [hobject, Option.getD_some, hloop, bind, Except.bind, hlast, hfold]
    rfl
  · -- only the names that are left are looked up in the graph
    refine (hmid.trans (hcleaned.of_iff (q := fun name => graph.nodes.get? name = none) ?_)).of_iff
      fun entry _ => ?_
    · intro entry hentry
      simp only [List.mem_filter, Option.isNone_iff_eq_none, and_iff_right_iff_imp]
      exact fun _ => List.mem_map_of_mem hentry
    · refine or_congr_left ?_
      unfold After
      constructor
      · rintro ⟨node, hnode, root, rfl | hroot, hname⟩
        · exact ⟨_, .inl hnode, hname⟩
        · exact ⟨root, .inr ⟨node, hnode, hroot⟩, hname⟩
      · rintro ⟨root, hroot | ⟨node, hnode, hroot⟩, hname⟩
        · exact ⟨root, hroot, root, .inl rfl, hname⟩
        · exact ⟨node, hnode, root, .inr hroot, hname⟩

end Program

/-! ## When the program removes what it should -/

/-- The result is the run data without what has to be removed; it is an object of its own, the
objects that were there are as they were, and cleaning the result changes nothing. -/
def Cleans (objects : RunDataObjects α) (object : ℕ) (graph : NodeGraph)
    (nodesToClean : List INode) : Prop :=
  ∃ runData cleaned, objects[object]? = some runData ∧
    cleanRunData objects object graph nodesToClean =
      .ok (objects ++ [cleaned], objects.length) ∧
    (∀ name, ToRemove graph nodesToClean name → cleaned.get? name = none) ∧
    (∀ name, ¬ ToRemove graph nodesToClean name → cleaned.get? name = runData.get? name) ∧
    cleanRunData (objects ++ [cleaned]) objects.length graph nodesToClean =
      .ok (objects ++ [cleaned] ++ [cleaned], (objects ++ [cleaned]).length)

/-- A sub-node of a node before one that is run again has no run data, unless it has to be removed
anyway. -/
def SparesUpstream (graph : NodeGraph) (nodesToClean : List INode) (runData : IRunData α) : Prop :=
  ∀ root, After graph nodesToClean root → ∀ c ∈ graph.connections.values, OfSubNode c →
    graph.Path (fun _ => True) c.to root → (∃ runs, runData.get? c.from.name = some runs) →
    ToRemove graph nodesToClean c.from.name

section Cleans

variable {graph : IntactGraph} {objects : RunDataObjects α} {nodesToClean : List INode}
  {object : ℕ} {runData : IRunData α}

theorem removed_of_toRemove {graph : NodeGraph} {name : String}
    (h : ToRemove graph nodesToClean name) : Removed graph nodesToClean name := by
  refine h.imp_left ?_
  rintro ⟨node, ⟨root, hroot, hpath⟩, rfl⟩
  refine ⟨root, hroot, ?_⟩
  -- the node itself, or the source of the first connection of the path
  rcases Relation.ReflTransGen.cases_head hpath with rfl | ⟨next, ⟨c, hc, hkind, rfl, rfl⟩, hrest⟩
  · exact .inl rfl
  · exact .inr ⟨c, hc, hkind, NodeGraph.path_of_kind hrest, rfl⟩

theorem toRemove_of_removed {graph : NodeGraph} {name : String} {runs : List (ITaskData α)}
    (hspares : SparesUpstream graph nodesToClean runData) (hname : runData.get? name = some runs)
    (h : Removed graph nodesToClean name) : ToRemove graph nodesToClean name := by
  rcases h with ⟨root, hroot, rfl | ⟨c, hc, hkind, hpath, rfl⟩⟩ | hgone
  · exact .inl ⟨root, ⟨root, hroot, .refl⟩, rfl⟩
  · exact hspares root hroot c hc hkind hpath ⟨runs, hname⟩
  · exact .inr hgone

theorem Cleans.sparesUpstream (hnodes : ∀ node ∈ nodesToClean, graph.Stores node)
    (hobject : objects[object]? = some runData)
    (h : Cleans objects object graph.toNodeGraph nodesToClean) :
    SparesUpstream graph.toNodeGraph nodesToClean runData := by
  obtain ⟨cleaned, hrun, hremoved⟩ := cleanRunData_eq hnodes hobject
  obtain ⟨runData', cleaned', hobject', hrun', -, hkept, -⟩ := h
  obtain rfl : runData = runData' := Option.some.inj (hobject.symm.trans hobject')
  obtain rfl : cleaned = cleaned' := by
    rw [hrun] at hrun'
    simpa using hrun'
  rintro root hroot c hc hkind hpath ⟨runs, hname⟩
  by_contra hnot
  have hgone := hremoved.get?_eq c.from.name
  rw [if_pos (.inl ⟨root, hroot, .inr ⟨c, hc, hkind, hpath, rfl⟩⟩), hkept _ hnot, hname] at hgone
  cases hgone

/-- **Exactly what has to be removed is removed if and only if** no sub-node of a node before those
that are run again loses its run data. -/
theorem cleans_iff_sparesUpstream (hnodes : ∀ node ∈ nodesToClean, graph.Stores node)
    (hobject : objects[object]? = some runData) :
    Cleans objects object graph.toNodeGraph nodesToClean ↔
      SparesUpstream graph.toNodeGraph nodesToClean runData := by
  refine ⟨Cleans.sparesUpstream hnodes hobject, fun hspares => ?_⟩
  obtain ⟨cleaned, hrun, hremoved⟩ := cleanRunData_eq hnodes hobject
  have hlast : (objects ++ [cleaned])[objects.length]? = some cleaned := by simp
  obtain ⟨again, hagain, hremoved'⟩ := cleanRunData_eq hnodes hlast
  obtain rfl := hremoved.eq_of_removes hremoved'
  refine ⟨runData, again, hobject, hrun, fun name hname => ?_, fun name hname => ?_, hagain⟩
  · rw [hremoved.get?_eq, if_pos (removed_of_toRemove hname)]
  · rw [hremoved.get?_eq]
    split
    next hgone =>
      -- an entry that is removed without need would be one of a node upstream
      cases hget : runData.get? name with
      | none => rfl
      | some runs => exact absurd (toRemove_of_removed hspares hget hgone) hname
    next => rfl

end Cleans

/-- One node after another. -/
def chainGraph : IntactGraph where
  toNodeGraph := (NodeGraph.empty.addNodes [⟨"Trigger", 0⟩, ⟨"Set", 1⟩]).setConnection
    ⟨⟨"Trigger", 0⟩, ⟨"Set", 1⟩, "main", 0, 0⟩
  endsStored := by
    unfold NodeGraph.EndsStored
    decide

def chainRunData : IRunData Unit :=
  (OrderedMap.empty.set "Trigger" [⟨none⟩]).set "Set" [⟨none⟩]

/-- Without sub-nodes the nodes before are spared. -/
theorem cleans_chain : Cleans [chainRunData] 0 chainGraph.toNodeGraph [⟨"Set", 1⟩] := by
  have hspares : SparesUpstream chainGraph.toNodeGraph [⟨"Set", 1⟩] chainRunData := by
    intro root _ c hc hkind
    have hmain : ∀ c ∈ chainGraph.connections.values, ¬ OfSubNode c := by decide
    exact absurd hkind (hmain c hc)
  exact (@cleans_iff_sparesUpstream Unit chainGraph [chainRunData] [⟨"Set", 1⟩] 0 chainRunData
    (by decide) rfl).mpr hspares

/-! ## An agent before the node that is cleaned -/

/-- A model is connected to an agent, and the agent to the node that is cleaned. -/
def agentGraph : IntactGraph where
  toNodeGraph := ((NodeGraph.empty.addNodes [⟨"Model", 0⟩, ⟨"Agent", 1⟩, ⟨"Set", 2⟩]).setConnection
    ⟨⟨"Model", 0⟩, ⟨"Agent", 1⟩, "ai_languageModel", 0, 0⟩).setConnection
      ⟨⟨"Agent", 1⟩, ⟨"Set", 2⟩, "main", 0, 0⟩
  endsStored := by
    unfold NodeGraph.EndsStored
    decide

def agentRunData : IRunData Unit :=
  ((OrderedMap.empty.set "Model" [⟨none⟩]).set "Agent" [⟨none⟩]).set "Set" [⟨none⟩]

theorem not_descends_set (node : INode) : ¬ agentGraph.Descends ⟨"Set", 2⟩ node := by
  intro h
  obtain ⟨mid, ⟨c, hc, -, hfrom, -⟩, -⟩ := Relation.TransGen.head'_iff.mp h
  revert c
  decide

theorem after_set (h : After agentGraph.toNodeGraph [⟨"Set", 2⟩] node) : node = ⟨"Set", 2⟩ := by
  rcases h with hin | ⟨start, hin, hdescends⟩
  · exact List.mem_singleton.mp hin
  · rw [List.mem_singleton.mp hin] at hdescends
    exact absurd hdescends (not_descends_set node)

/-- The model of the agent is not run again, and its run data is gone. -/
theorem not_cleans :
    ¬ Cleans [agentRunData] 0 agentGraph.toNodeGraph [⟨"Set", 2⟩] := by
  intro h
  have hspares := @Cleans.sparesUpstream Unit agentGraph [agentRunData] [⟨"Set", 2⟩] 0 agentRunData
    (by decide) rfl h
  have hpath : agentGraph.Path (fun _ => True) ⟨"Agent", 1⟩ ⟨"Set", 2⟩ :=
    .single ⟨⟨⟨"Agent", 1⟩, ⟨"Set", 2⟩, "main", 0, 0⟩, by decide, trivial, rfl, rfl⟩
  have hremove := hspares ⟨"Set", 2⟩ (.inl (List.mem_singleton_self _))
    ⟨⟨"Model", 0⟩, ⟨"Agent", 1⟩, "ai_languageModel", 0, 0⟩ (by decide) (by decide) hpath ⟨_, rfl⟩
  rcases hremove with ⟨node, ⟨root, hroot, hsub⟩, hname⟩ | hgone
  · obtain rfl := after_set hroot
    rcases Relation.ReflTransGen.cases_tail hsub with rfl | ⟨mid, -, c, hc, hkind, -, hto⟩
    · exact absurd hname (by decide)
    · revert c
      decide
  · revert hgone
    decide

end N8n.PartialExecution
