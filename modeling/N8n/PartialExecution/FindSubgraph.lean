import N8n.Foundations.BranchSearch
import N8n.PartialExecution.GraphSearch

/-!
# The subgraph between a trigger and a destination

A partial execution works on the part of a graph between a trigger and a destination. The program
searches backwards from the destination and keeps the branches that get to the trigger, and those
that get to a node they went through. Then it adds the connections of other types than the main one
that lead to a node of the subgraph, over connections of all types.

## Main definitions

* `findSubgraph`: the program
* `OnWalk`, `WalkNode`: the connections and the nodes of the walks from the trigger to the
  destination
* `IsSubgraph`: these, with the sub-nodes of the nodes

## Main results

* `findSubgraph_eq`: what the subgraph is made of
* `findsSubgraph_iff`: when it is the right one
* `not_findsSubgraph`: a cycle without the trigger, and an agent before the walk
-/

namespace N8n.PartialExecution

open BranchSearch (Grow Ends Branch Kept)

/-! ## The program -/

section Program

variable (graph : NodeGraph) (destinationNode trigger : INode)

/-- Add the connections with their ends. -/
def keepBranch (newGraph : NodeGraph) (branch : List NodeConnection) : Except String NodeGraph :=
  branch.foldlM (fun newGraph connection =>
    (newGraph.addNodes connection.ends).addConnection (.ofConnection connection)) newGraph

/-- `fuel` bounds the depth of the recursion. -/
def findSubgraphRecursive :
    ℕ → INode → NodeGraph → List NodeConnection → Except String NodeGraph
  | 0, _, _, _ => .error NodeGraph.callStackExceeded
  | fuel + 1, current, newGraph, currentBranch =>
    if current = trigger then keepBranch (newGraph.addNode trigger) currentBranch
    else do
      let parentConnections ← graph.getDirectParentConnections current
      if parentConnections = [] then pure newGraph
      else if current = destinationNode ∧ currentBranch.any (·.to = destinationNode) then
        pure newGraph
      else if currentBranch.any (·.to = current) then keepBranch newGraph currentBranch
      else
        parentConnections.foldlM (fun newGraph parentConnection =>
          if parentConnection.type ≠ "main" then pure newGraph
          else findSubgraphRecursive fuel parentConnection.from newGraph
            (currentBranch ++ [parentConnection])) newGraph

/-- Add the connections that are not of the main type and lead to a node. -/
def addSubNodes (subgraph : NodeGraph) (node : INode) : Except String NodeGraph := do
  let parentConnections ← graph.getParentConnections node
  keepBranch subgraph (parentConnections.filter fun connection => connection.type ≠ "main")

def findSubgraph : Except String NodeGraph := do
  let subgraph ← findSubgraphRecursive graph destinationNode trigger
    (graph.nodes.values.length + 1) destinationNode .empty []
  subgraph.nodes.values.foldlM (addSubNodes graph) subgraph

end Program

/-! ## Adding parts of a graph -/

structure PartOf (graph newGraph : NodeGraph) : Prop where
  stores : ∀ node, newGraph.Stores node → graph.Stores node
  mem_values : ∀ c ∈ newGraph.connections.values, c ∈ graph.connections.values

structure Extends (graph before after : NodeGraph) (nodes : INode → Prop)
    (connections : NodeConnection → Prop) : Prop where
  stores : ∀ node, after.Stores node ↔ before.Stores node ∨ nodes node
  mem_values : ∀ c, c ∈ after.connections.values ↔ c ∈ before.connections.values ∨ connections c
  part : PartOf graph after

section Adding

variable {graph : IntactGraph} {newGraph before mid after : NodeGraph} {node : INode}
  {c : NodeConnection} {nodes nodes' : INode → Prop}
  {connections connections' : NodeConnection → Prop}

theorem Extends.trans (h : Extends graph.toNodeGraph before mid nodes connections)
    (h' : Extends graph.toNodeGraph mid after nodes' connections') :
    Extends graph.toNodeGraph before after (fun n => nodes n ∨ nodes' n)
      fun c => connections c ∨ connections' c where
  stores n := by rw [h'.stores, h.stores, or_assoc]
  mem_values c := by rw [h'.mem_values, h.mem_values, or_assoc]
  part := h'.part

theorem Extends.of_iff (h : Extends graph.toNodeGraph before after nodes connections)
    (hnodes : ∀ n, nodes n ↔ nodes' n) (hconnections : ∀ c, connections c ↔ connections' c) :
    Extends graph.toNodeGraph before after nodes' connections' where
  stores n := by rw [h.stores, hnodes]
  mem_values c := by rw [h.mem_values, hconnections]
  part := h.part

theorem extends_refl (h : PartOf graph.toNodeGraph newGraph) :
    Extends graph.toNodeGraph newGraph newGraph (fun _ => False) fun _ => False :=
  ⟨fun _ => (or_false _).symm.to_iff, fun _ => (or_false _).symm.to_iff, h⟩

theorem stores_iff_mem : newGraph.Stores node ↔ node ∈ newGraph.nodes.values :=
  newGraph.nodes_keyed.mem_values.symm

theorem extends_addNode (h : PartOf graph.toNodeGraph newGraph) (hnode : graph.Stores node) :
    Extends graph.toNodeGraph newGraph (newGraph.addNode node) (· = node) fun _ => False := by
  have hstores : ∀ n, (newGraph.addNode node).Stores n ↔ newGraph.Stores n ∨ n = node := by
    intro n
    unfold NodeGraph.Stores NodeGraph.addNode
    rw [OrderedMap.get?_set]
    split
    next heq =>
      constructor
      · intro h
        exact .inr (Option.some.inj h).symm
      · rintro (hn | rfl)
        · exact congrArg some (eq_of_stores hnode (h.stores n hn) heq).symm
        · rfl
    next hne =>
      exact ⟨.inl, fun hn => hn.resolve_right fun heq => hne (congrArg INode.name heq)⟩
  refine ⟨hstores, fun _ => (or_false _).symm.to_iff, fun n hn => ?_, h.mem_values⟩
  rcases (hstores n).mp hn with hn | rfl
  · exact h.stores n hn
  · exact hnode

theorem extends_setConnection (h : PartOf graph.toNodeGraph newGraph)
    (hc : c ∈ graph.connections.values) :
    Extends graph.toNodeGraph newGraph (newGraph.setConnection c) (fun _ => False) (· = c) := by
  have hget := graph.connections_keyed.mem_values.mp hc
  have hvalues : ∀ d, d ∈ (newGraph.setConnection c).connections.values ↔
      d ∈ newGraph.connections.values ∨ d = c := by
    intro d
    rw [(newGraph.setConnection c).connections_keyed.mem_values,
      newGraph.connections_keyed.mem_values]
    unfold NodeGraph.setConnection
    rw [OrderedMap.get?_set]
    split
    next heq =>
      constructor
      · intro h
        exact .inr (Option.some.inj h).symm
      · rintro (hd | rfl)
        · -- two connections of the graph with one key are one
          have hd := graph.connections_keyed.mem_values.mp
            (h.mem_values d (newGraph.connections_keyed.mem_values.mpr hd))
          rw [heq, hget] at hd
          exact hd
        · rfl
    next hne =>
      exact ⟨.inl, fun hd => hd.resolve_right fun heq => hne (congrArg NodeConnection.key heq)⟩
  refine ⟨fun _ => (or_false _).symm.to_iff, hvalues, h.stores, fun d hd => ?_⟩
  rcases (hvalues d).mp hd with hd | rfl
  · exact h.mem_values d hd
  · exact hc

/-- A loop whose rounds add parts of the graph. -/
theorem foldlM_extends {β : Type} {f : NodeGraph → β → Except String NodeGraph} {xs : List β}
    {nodes : β → INode → Prop} {connections : β → NodeConnection → Prop}
    (h : ∀ x ∈ xs, ∀ newGraph, PartOf graph.toNodeGraph newGraph → ∃ after,
      f newGraph x = .ok after ∧
        Extends graph.toNodeGraph newGraph after (nodes x) (connections x))
    (hpart : PartOf graph.toNodeGraph newGraph) : ∃ after, xs.foldlM f newGraph = .ok after ∧
      Extends graph.toNodeGraph newGraph after (fun n => ∃ x ∈ xs, nodes x n)
        fun c => ∃ x ∈ xs, connections x c := by
  induction xs generalizing newGraph with
  | nil => exact ⟨newGraph, rfl, (extends_refl hpart).of_iff (by simp) (by simp)⟩
  | cons x xs ih =>
    obtain ⟨mid, hstep, hmid⟩ := h x List.mem_cons_self newGraph hpart
    obtain ⟨after, hrun, hafter⟩ := ih (fun y hy => h y (List.mem_cons_of_mem _ hy)) hmid.part
    refine ⟨after, ?_, (hmid.trans hafter).of_iff (by simp) (by simp)⟩
    rw [List.foldlM_cons, hstep]
    exact hrun

theorem keepBranch_extends {branch : List NodeConnection}
    (hbranch : ∀ c ∈ branch, c ∈ graph.connections.values)
    (hpart : PartOf graph.toNodeGraph newGraph) : ∃ after,
      keepBranch newGraph branch = .ok after ∧ Extends graph.toNodeGraph newGraph after
        (fun n => ∃ c ∈ branch, n ∈ c.ends) (· ∈ branch) := by
  have hstep : ∀ c ∈ branch, ∀ newGraph, PartOf graph.toNodeGraph newGraph → ∃ after,
      (newGraph.addNodes c.ends).addConnection (.ofConnection c) = .ok after ∧
        Extends graph.toNodeGraph newGraph after (· ∈ c.ends) (· = c) := by
    intro c hc newGraph hpart
    have hfrom := extends_addNode hpart (graph.stores_from (hbranch c hc))
    have hto := extends_addNode hfrom.part (graph.stores_to (hbranch c hc))
    have hset := extends_setConnection hto.part (hbranch c hc)
    refine ⟨_, ?_, ((hfrom.trans hto).trans hset).of_iff (by simp [NodeConnection.ends]) (by simp)⟩
    have hstores := (hfrom.trans hto).stores
    have hf : (newGraph.addNodes c.ends).Stores c.from := (hstores c.from).mpr (.inr (.inl rfl))
    have ht : (newGraph.addNodes c.ends).Stores c.to := (hstores c.to).mpr (.inr (.inr rfl))
    exact (if_neg (not_not.mpr hf)).trans (if_neg (not_not.mpr ht))
  obtain ⟨after, hrun, hafter⟩ := foldlM_extends hstep hpart
  exact ⟨after, hrun, hafter.of_iff (fun _ => Iff.rfl) (by simp)⟩

end Adding

/-! ## The search -/

def NodeGraph.IsMain (graph : NodeGraph) (c : NodeConnection) : Prop :=
  c ∈ graph.connections.values ∧ c.type = "main"

section Search

variable {graph : IntactGraph} {destinationNode trigger : INode}

/-- A branch of the search: where it is, and its connections, the last one first. -/
abbrev SearchBranch := INode × List NodeConnection

/-- The branch gets to another one. -/
def Grows (graph : NodeGraph) (trigger : INode) : SearchBranch → SearchBranch → Prop :=
  Relation.ReflTransGen (Grow graph.IsMain NodeConnection.from NodeConnection.to trigger)

def IsKept (destinationNode trigger : INode) : SearchBranch → Prop :=
  Ends NodeConnection.to trigger destinationNode

def OfBranch (trigger : INode) (s : SearchBranch) (node : INode) : Prop :=
  (s.1 = trigger ∧ node = trigger) ∨ ∃ c ∈ s.2, node ∈ c.ends

/-- A branch that is kept and of which `P` holds is got to. -/
def KeptFrom (graph : NodeGraph) (destinationNode trigger : INode) (P : SearchBranch → Prop)
    (s : SearchBranch) : Prop :=
  ∃ t, Grows graph trigger s t ∧ (IsKept destinationNode trigger t ∧ P t)

variable {s : SearchBranch} {P : SearchBranch → Prop}

theorem keptFrom_iff : KeptFrom graph.toNodeGraph destinationNode trigger P s ↔
    (IsKept destinationNode trigger s ∧ P s) ∨
      ∃ u, Grow graph.IsMain NodeConnection.from NodeConnection.to trigger s u ∧
        KeptFrom graph.toNodeGraph destinationNode trigger P u := by
  constructor
  · rintro ⟨t, hgrows, ht⟩
    rcases Relation.ReflTransGen.cases_head hgrows with rfl | ⟨u, hgrow, hrest⟩
    · exact .inl ht
    · exact .inr ⟨u, hgrow, t, hrest, ht⟩
  · rintro (hs | ⟨u, hgrow, t, hgrows, ht⟩)
    · exact ⟨s, .refl, hs⟩
    · exact ⟨t, .head hgrow hgrows, ht⟩

/-- A branch that cannot grow is the only one it gets to. -/
theorem keptFrom_of_stuck
    (h : ∀ u, ¬ Grow graph.IsMain NodeConnection.from NodeConnection.to trigger s u) :
    KeptFrom graph.toNodeGraph destinationNode trigger P s ↔
      IsKept destinationNode trigger s ∧ P s :=
  keptFrom_iff.trans (or_iff_left fun ⟨u, hgrow, _⟩ => h u hgrow)

/-- A branch at a new node goes on to the parents of the node. -/
theorem keptFrom_of_new (htrigger : s.1 ≠ trigger) (hnew : ∀ c ∈ s.2, c.to ≠ s.1) :
    KeptFrom graph.toNodeGraph destinationNode trigger P s ↔
      ∃ c ∈ graph.parentConnectionsOf s.1, c.type = "main" ∧
        KeptFrom graph.toNodeGraph destinationNode trigger P (c.from, c :: s.2) := by
  have hdropped : ¬ IsKept destinationNode trigger s := by
    rintro (hstart | ⟨-, c, hc, hto⟩)
    · exact htrigger hstart
    · exact hnew c hc hto
  rw [keptFrom_iff, or_iff_right fun h => hdropped h.1]
  constructor
  · rintro ⟨u, ⟨-, -, c, ⟨hc, htype⟩, hto, rfl⟩, hkept⟩
    exact ⟨c, graph.mem_parentConnectionsOf.mpr ⟨hc, hto⟩, htype, hkept⟩
  · rintro ⟨c, hc, htype, hkept⟩
    obtain ⟨hc, hto⟩ := graph.mem_parentConnectionsOf.mp hc
    exact ⟨_, ⟨htrigger, hnew, c, ⟨hc, htype⟩, hto, rfl⟩, hkept⟩

def unvisited (graph : NodeGraph) (s : SearchBranch) : Finset INode :=
  graph.nodes.values.toFinset.filter fun node => ∀ c ∈ s.2, c.to ≠ node

theorem card_unvisited_lt (hnode : graph.Stores s.1) (hnew : ∀ c ∈ s.2, c.to ≠ s.1)
    {c : NodeConnection} (hc : c.to = s.1) :
    (unvisited graph.toNodeGraph (c.from, c :: s.2)).card <
      (unvisited graph.toNodeGraph s).card := by
  refine Finset.card_lt_card ⟨fun node hin => ?_, fun hsub => ?_⟩
  · obtain ⟨hmem, hall⟩ := Finset.mem_filter.mp hin
    exact Finset.mem_filter.mpr ⟨hmem, fun d hd => hall d (List.mem_cons_of_mem _ hd)⟩
  · have hin : s.1 ∈ unvisited graph.toNodeGraph s :=
      Finset.mem_filter.mpr ⟨List.mem_toFinset.mpr (stores_iff_mem.mp hnode), hnew⟩
    exact (Finset.mem_filter.mp (hsub hin)).2 c List.mem_cons_self hc

/-- What the search from a branch adds: the branches that are kept. -/
theorem findSubgraphRecursive_extends {fuel : ℕ} {newGraph : NodeGraph}
    (hnode : graph.Stores s.1) (hbranch : ∀ c ∈ s.2, c ∈ graph.connections.values)
    (hfuel : (unvisited graph.toNodeGraph s).card < fuel)
    (hpart : PartOf graph.toNodeGraph newGraph) : ∃ after,
      findSubgraphRecursive graph.toNodeGraph destinationNode trigger fuel s.1 newGraph
          s.2.reverse = .ok after ∧
        Extends graph.toNodeGraph newGraph after
          (fun n => KeptFrom graph.toNodeGraph destinationNode trigger (OfBranch trigger · n) s)
          fun c => KeptFrom graph.toNodeGraph destinationNode trigger (c ∈ ·.2) s := by
  induction fuel generalizing s newGraph with
  | zero => exact absurd hfuel (Nat.not_lt_zero _)
  | succ fuel ih =>
    obtain ⟨current, branch⟩ := s
    simp only at hnode hbranch
    have hreverse : ∀ c ∈ branch.reverse, c ∈ graph.connections.values :=
      fun c hc => hbranch c (List.mem_reverse.mp hc)
    rw [findSubgraphRecursive]
    by_cases htrigger : current = trigger
    · -- the branch is at the trigger
      have hstuck : ∀ u, ¬ Grow graph.IsMain NodeConnection.from NodeConnection.to trigger
          (current, branch) u := fun u hgrow => hgrow.1 htrigger
      have hadd := extends_addNode hpart (htrigger ▸ hnode)
      obtain ⟨after, hrun, hafter⟩ := keepBranch_extends hreverse hadd.part
      rw [if_pos htrigger]
      refine ⟨after, hrun, (hadd.trans hafter).of_iff (fun n => ?_) fun c => ?_⟩
      all_goals
        rw [keptFrom_of_stuck hstuck]
        simp [IsKept, Ends, OfBranch, htrigger]
    · rw [if_neg htrigger, graph.getDirectParentConnections_eq hnode]
      by_cases hvisited : ∃ c ∈ branch, c.to = current
      · -- the branch was there before, and is kept unless that is the destination
        obtain ⟨c, hc, hto⟩ := hvisited
        have hstuck : ∀ u, ¬ Grow graph.IsMain NodeConnection.from NodeConnection.to trigger
            (current, branch) u := fun u hgrow => hgrow.2.1 c hc hto
        have hne : graph.parentConnectionsOf current ≠ [] :=
          List.ne_nil_of_mem (graph.mem_parentConnectionsOf.mpr ⟨hbranch c hc, hto⟩)
        have hany : branch.reverse.any (·.to = current) = true :=
          List.any_eq_true.mpr ⟨c, List.mem_reverse.mpr hc, by simpa using hto⟩
        simp only [bind, Except.bind, if_neg hne]
        by_cases hdestination : current = destinationNode
        · have hdropped : ¬ IsKept destinationNode trigger (current, branch) := by
            rintro (hstart | ⟨hgoal, -⟩)
            · exact htrigger hstart
            · exact hgoal hdestination
          rw [if_pos ⟨hdestination, hdestination ▸ hany⟩]
          refine ⟨newGraph, rfl, (extends_refl hpart).of_iff (fun n => ?_) fun c => ?_⟩
          all_goals
            rw [keptFrom_of_stuck hstuck]
            simp [hdropped]
        · have hkept : IsKept destinationNode trigger (current, branch) :=
            .inr ⟨hdestination, c, hc, hto⟩
          obtain ⟨after, hrun, hafter⟩ := keepBranch_extends hreverse hpart
          rw [if_neg fun h => hdestination h.1, if_pos hany]
          refine ⟨after, hrun, hafter.of_iff (fun n => ?_) fun c => ?_⟩
          all_goals
            rw [keptFrom_of_stuck hstuck]
            simp [hkept, OfBranch, htrigger]
      · -- the branch is at a new node, and goes on to its parents
        have hnew : ∀ c ∈ branch, c.to ≠ current := fun c hc hto => hvisited ⟨c, hc, hto⟩
        have hany : ¬ branch.reverse.any (·.to = current) = true := by
          simpa using hnew
        have hround : ∀ c ∈ graph.parentConnectionsOf current, ∀ newGraph : NodeGraph,
            PartOf graph.toNodeGraph newGraph → ∃ after,
              (if c.type ≠ "main" then pure newGraph
                else findSubgraphRecursive graph.toNodeGraph destinationNode trigger fuel c.from
                  newGraph (branch.reverse ++ [c])) = .ok after ∧
              Extends graph.toNodeGraph newGraph after
                (fun n => c.type = "main" ∧ KeptFrom graph.toNodeGraph destinationNode trigger
                  (OfBranch trigger · n) (c.from, c :: branch))
                fun d => c.type = "main" ∧ KeptFrom graph.toNodeGraph destinationNode trigger
                  (d ∈ ·.2) (c.from, c :: branch) := by
          intro c hc newGraph hpart
          obtain ⟨hc, hto⟩ := graph.mem_parentConnectionsOf.mp hc
          by_cases htype : c.type = "main"
          · have hlt := @card_unvisited_lt graph (current, branch) hnode hnew c hto
            obtain ⟨after, hrun, hafter⟩ := @ih (c.from, c :: branch) newGraph
              (graph.stores_from hc) (List.forall_mem_cons.mpr ⟨hc, hbranch⟩)
              (hlt.trans_le (Nat.le_of_lt_succ hfuel)) hpart
            rw [List.reverse_cons] at hrun
            refine ⟨after, (if_neg (not_not.mpr htype)).trans hrun, hafter.of_iff ?_ ?_⟩
            · exact fun n => (and_iff_right htype).symm
            · exact fun d => (and_iff_right htype).symm
          · refine ⟨newGraph, if_pos htype, (extends_refl hpart).of_iff ?_ ?_⟩
            · exact fun n => iff_of_false id fun h => htype h.1
            · exact fun d => iff_of_false id fun h => htype h.1
        obtain ⟨after, hrun, hafter⟩ := foldlM_extends hround hpart
        have hkept : ∀ P, KeptFrom graph.toNodeGraph destinationNode trigger P (current, branch) ↔
            ∃ c ∈ graph.parentConnectionsOf current, c.type = "main" ∧
              KeptFrom graph.toNodeGraph destinationNode trigger P (c.from, c :: branch) :=
          fun P => @keptFrom_of_new _ _ _ (current, branch) P htrigger hnew
        refine ⟨after, ?_, hafter.of_iff (fun n => (hkept _).symm) fun d => (hkept _).symm⟩
        simp only [bind, Except.bind]
        by_cases hnil : graph.parentConnectionsOf current = []
        · rw [if_pos hnil]
          rw [hnil] at hrun
          exact hrun
        · have hcycle : ¬ (current = destinationNode ∧
              branch.reverse.any (·.to = destinationNode) = true) := by
            rintro ⟨heq, hat⟩
            rw [← heq] at hat
            exact hany hat
          rw [if_neg hnil, if_neg hcycle, if_neg hany]
          exact hrun

end Search

/-! ## The subgraph -/

section Subgraph

variable (graph : NodeGraph) (destination trigger : INode)

/-- A connection of a walk of main connections from the trigger to the destination that goes
through neither of them. -/
def OnWalk : NodeConnection → Prop :=
  BranchSearch.OnWalk graph.IsMain NodeConnection.from NodeConnection.to trigger destination

def WalkNode (node : INode) : Prop :=
  ∃ w, BranchSearch.IsWalk graph.IsMain NodeConnection.from NodeConnection.to trigger destination
      w ∧
    BranchSearch.Direct NodeConnection.from trigger destination w ∧
      (node = trigger ∨ ∃ c ∈ w, c.to = node)

/-- The main connections are those of the walks, and the rest are the sub-nodes of their nodes. -/
structure IsSubgraph (subgraph : NodeGraph) : Prop where
  main : ∀ c, c.type = "main" →
    (c ∈ subgraph.connections.values ↔ OnWalk graph destination trigger c)
  rest : ∀ c, OfSubNode c → (c ∈ subgraph.connections.values ↔ c ∈ graph.connections.values ∧
    ∃ root, WalkNode graph destination trigger root ∧ graph.Path OfSubNode c.to root)
  nodes : ∀ node, subgraph.Stores node ↔
    ∃ root, WalkNode graph destination trigger root ∧ graph.Path OfSubNode node root

/-- Every cycle of main connections that leads to the destination can be reached from the trigger;
or the trigger is the destination, and no cycle goes through it. -/
def CyclesReached : Prop :=
  if trigger = destination then ∀ c, ¬ OnWalk graph destination trigger c
  else BranchSearch.CyclesReached graph.IsMain NodeConnection.from NodeConnection.to trigger
    destination

/-- A sub-node of a node before the walks is a sub-node of the walks as well. -/
def NoSubNodesUpstream : Prop :=
  ∀ c ∈ graph.connections.values, OfSubNode c → ∀ root, WalkNode graph destination trigger root →
    graph.Path (fun _ => True) c.to root →
    ∃ root, WalkNode graph destination trigger root ∧ graph.Path OfSubNode c.to root

end Subgraph

section FindSubgraph

variable {graph : IntactGraph} {destination trigger : INode}

def KeptNode (graph : NodeGraph) (destination trigger node : INode) : Prop :=
  ∃ t, Grows graph trigger (destination, []) t ∧
    (IsKept destination trigger t ∧ OfBranch trigger t node)

def KeptConnection (graph : NodeGraph) (destination trigger : INode) : NodeConnection → Prop :=
  Kept graph.IsMain NodeConnection.from NodeConnection.to trigger destination

/-- A connection of another type than the main one that leads to a node that is kept. -/
def KeptUpstream (graph : NodeGraph) (destination trigger : INode) (c : NodeConnection) : Prop :=
  c ∈ graph.connections.values ∧ OfSubNode c ∧
    ∃ root, KeptNode graph destination trigger root ∧ graph.Path (fun _ => True) c.to root

theorem not_stores_empty (node : INode) : ¬ NodeGraph.empty.Stores node := by
  intro h
  cases (show none = some node from h)

theorem partOf_empty : PartOf graph.toNodeGraph .empty :=
  ⟨fun n h => absurd h (not_stores_empty n), fun _ h => absurd h List.not_mem_nil⟩

theorem addSubNodes_extends {node : INode} (hnode : graph.Stores node) (newGraph : NodeGraph)
    (hpart : PartOf graph.toNodeGraph newGraph) : ∃ after,
      addSubNodes graph.toNodeGraph newGraph node = .ok after ∧
        Extends graph.toNodeGraph newGraph after
          (fun n => ∃ c, (c ∈ graph.connections.values ∧ OfSubNode c ∧
            graph.Path (fun _ => True) c.to node) ∧ n ∈ c.ends)
          fun c => c ∈ graph.connections.values ∧ OfSubNode c ∧
            graph.Path (fun _ => True) c.to node := by
  obtain ⟨connections, hrun, hmem⟩ := graph.mem_getParentConnections hnode
  have hfilter : ∀ c, c ∈ connections.filter (fun c => c.type ≠ "main") ↔
      c ∈ graph.connections.values ∧ OfSubNode c ∧ graph.Path (fun _ => True) c.to node := by
    intro c
    rw [List.mem_filter, hmem, decide_eq_true_eq, and_assoc, and_comm (b := c.type ≠ "main")]
    rfl
  obtain ⟨after, hkeep, hafter⟩ := keepBranch_extends
    (fun c hc => ((hfilter c).mp hc).1) hpart
  refine ⟨after, ?_, hafter.of_iff (fun n => ?_) hfilter⟩
  · rw [addSubNodes, hrun]
    exact hkeep
  · exact exists_congr fun c => and_congr_left fun _ => hfilter c

/-- **What the subgraph is made of**: the branches that are kept, and what leads to their nodes over
a connection of another type. -/
theorem findSubgraph_eq (hdestination : graph.Stores destination) : ∃ subgraph,
    findSubgraph graph.toNodeGraph destination trigger = .ok subgraph ∧
      (∀ node, subgraph.Stores node ↔ KeptNode graph.toNodeGraph destination trigger node ∨
        ∃ c, KeptUpstream graph.toNodeGraph destination trigger c ∧ node ∈ c.ends) ∧
      ∀ c, c ∈ subgraph.connections.values ↔
        KeptConnection graph.toNodeGraph destination trigger c ∨
          KeptUpstream graph.toNodeGraph destination trigger c := by
  have hfuel : (unvisited graph.toNodeGraph (destination, [])).card <
      graph.nodes.values.length + 1 :=
    Nat.lt_succ_of_le ((Finset.card_filter_le _ _).trans (List.toFinset_card_le _))
  obtain ⟨mid, hsearch, hmid⟩ := @findSubgraphRecursive_extends graph destination trigger
    (destination, []) _ .empty hdestination (fun c hc => absurd hc List.not_mem_nil) hfuel
    partOf_empty
  have hnodes : ∀ node ∈ mid.nodes.values, graph.Stores node :=
    fun node hnode => hmid.part.stores node (stores_iff_mem.mpr hnode)
  have hkept : ∀ node, node ∈ mid.nodes.values ↔
      KeptNode graph.toNodeGraph destination trigger node := by
    intro node
    rw [← stores_iff_mem, hmid.stores]
    exact or_iff_right (not_stores_empty node)
  obtain ⟨subgraph, hloop, hsubgraph⟩ := foldlM_extends
    (fun node hnode => addSubNodes_extends (hnodes node hnode)) hmid.part
  have hall := hmid.trans hsubgraph
  refine ⟨subgraph, ?_, fun n => (hall.stores n).trans ?_, fun c => (hall.mem_values c).trans ?_⟩
  · rw [findSubgraph]
    rw [List.reverse_nil] at hsearch
    rw [hsearch]
    exact hloop
  · refine (or_iff_right (not_stores_empty n)).trans (or_congr_right ?_)
    constructor
    · rintro ⟨root, hroot, c, ⟨hc, htype, hpath⟩, hn⟩
      exact ⟨c, ⟨hc, htype, root, (hkept root).mp hroot, hpath⟩, hn⟩
    · rintro ⟨c, ⟨hc, htype, root, hroot, hpath⟩, hn⟩
      exact ⟨root, (hkept root).mpr hroot, c, ⟨hc, htype, hpath⟩, hn⟩
  · refine (or_iff_right List.not_mem_nil).trans (or_congr Iff.rfl ?_)
    constructor
    · rintro ⟨root, hroot, hc, htype, hpath⟩
      exact ⟨hc, htype, root, (hkept root).mp hroot, hpath⟩
    · rintro ⟨hc, htype, root, hroot, hpath⟩
      exact ⟨root, (hkept root).mpr hroot, hc, htype, hpath⟩

end FindSubgraph

/-! ## When the subgraph is the right one -/

section Right

variable {graph : IntactGraph} {destination trigger : INode} {c : NodeConnection}

theorem isMain_of_kept (h : KeptConnection graph.toNodeGraph destination trigger c) :
    graph.IsMain c := by
  obtain ⟨s, hbranch, -, hc⟩ := h
  exact hbranch.walk.1.edge_of_mem hc

theorem isMain_of_onWalk (h : OnWalk graph.toNodeGraph destination trigger c) :
    graph.IsMain c := by
  obtain ⟨w, hw, -, hc⟩ := h
  exact hw.edge_of_mem hc

/-- The connections that are kept are those of the walks exactly when the cycles are reached. -/
theorem forall_kept_iff_onWalk_iff :
    (∀ c, KeptConnection graph.toNodeGraph destination trigger c ↔
      OnWalk graph.toNodeGraph destination trigger c) ↔
        CyclesReached graph.toNodeGraph destination trigger := by
  unfold CyclesReached
  split
  next heq =>
    -- the search ends where it starts
    have hnone : ∀ c, ¬ KeptConnection graph.toNodeGraph destination trigger c := by
      rintro c ⟨s, hbranch, -, hc⟩
      rcases Relation.ReflTransGen.cases_head hbranch with rfl | ⟨u, hgrow, -⟩
      · cases hc
      · exact hgrow.1 heq.symm
    refine forall_congr' fun c => ?_
    rw [iff_false_intro (hnone c), false_iff]
  next hne =>
    have hgoal : destination ≠ trigger := fun heq => hne heq.symm
    rw [← BranchSearch.forall_kept_onWalk_iff hgoal]
    exact ⟨fun h c => (h c).mp, fun h c => ⟨h c, BranchSearch.kept_of_onWalk hgoal⟩⟩

theorem source_cases {kind : NodeConnection → Prop} {a b : INode} {w : List NodeConnection}
    (h : BranchSearch.IsWalk kind NodeConnection.from NodeConnection.to a b w) (hc : c ∈ w) :
    c.from = a ∨ ∃ d ∈ w, d.to = c.from := by
  induction w generalizing a with
  | nil => cases hc
  | cons d w ih =>
    rcases List.mem_cons.mp hc with rfl | hc
    · exact .inl h.2.1
    · rcases ih h.2.2 hc with heq | ⟨d', hd', heq⟩
      · exact .inr ⟨d, List.mem_cons_self, heq.symm⟩
      · exact .inr ⟨d', List.mem_cons_of_mem _ hd', heq⟩

theorem keptNode_iff (h : ∀ c, KeptConnection graph.toNodeGraph destination trigger c ↔
    OnWalk graph.toNodeGraph destination trigger c) (node : INode) :
    KeptNode graph.toNodeGraph destination trigger node ↔
      WalkNode graph.toNodeGraph destination trigger node := by
  -- the ends of a connection that is kept are nodes of the branch
  have hend : ∀ c, OnWalk graph.toNodeGraph destination trigger c → node ∈ c.ends →
      KeptNode graph.toNodeGraph destination trigger node := by
    intro c hc hnode
    obtain ⟨t, hbranch, hends, hin⟩ := (h c).mpr hc
    exact ⟨t, hbranch, hends, .inr ⟨c, hin, hnode⟩⟩
  constructor
  · rintro ⟨⟨x, w⟩, hbranch, hends, ⟨rfl, rfl⟩ | ⟨c, hc, hnode⟩⟩
    · obtain ⟨hw, hdirect, -⟩ := BranchSearch.Branch.walk hbranch
      exact ⟨w, hw, hdirect, .inl rfl⟩
    · obtain ⟨w', hw, hdirect, hin⟩ := (h c).mp ⟨(x, w), hbranch, hends, hc⟩
      refine ⟨w', hw, hdirect, ?_⟩
      simp only [NodeConnection.ends, List.mem_cons, List.not_mem_nil, or_false] at hnode
      rcases hnode with rfl | rfl
      · exact source_cases hw hin
      · exact .inr ⟨c, hin, rfl⟩
  · rintro ⟨w, hw, hdirect, rfl | ⟨c, hc, rfl⟩⟩
    · cases w with
      | nil =>
        obtain rfl : node = destination := hw
        exact ⟨_, .refl, .inl rfl, .inl ⟨rfl, rfl⟩⟩
      | cons c w =>
        refine hend c ⟨_, hw, hdirect, List.mem_cons_self⟩ ?_
        exact hw.2.1 ▸ List.mem_cons_self
    · exact hend c ⟨w, hw, hdirect, hc⟩ (List.mem_cons_of_mem _ (List.mem_singleton_self _))

variable (graph destination trigger) in
/-- The subgraph is found, and is the right one. -/
def FindsSubgraph : Prop :=
  ∃ subgraph, findSubgraph graph.toNodeGraph destination trigger = .ok subgraph ∧
    IsSubgraph graph.toNodeGraph destination trigger subgraph

theorem keptUpstream_iff (h : ∀ c, KeptConnection graph.toNodeGraph destination trigger c ↔
    OnWalk graph.toNodeGraph destination trigger c) (c : NodeConnection) :
    KeptUpstream graph.toNodeGraph destination trigger c ↔
      c ∈ graph.connections.values ∧ OfSubNode c ∧ ∃ root,
        WalkNode graph.toNodeGraph destination trigger root ∧
          graph.Path (fun _ => True) c.to root := by
  unfold KeptUpstream
  simp only [keptNode_iff h]

theorem FindsSubgraph.conditions (hdestination : graph.Stores destination)
    (h : FindsSubgraph graph destination trigger) :
    CyclesReached graph.toNodeGraph destination trigger ∧
      NoSubNodesUpstream graph.toNodeGraph destination trigger := by
  obtain ⟨subgraph, hrun, -, hvalues⟩ := @findSubgraph_eq graph destination trigger hdestination
  obtain ⟨subgraph', hrun', hright⟩ := h
  obtain rfl : subgraph = subgraph' := Except.ok.inj (hrun.symm.trans hrun')
  have hkept : ∀ c, KeptConnection graph.toNodeGraph destination trigger c ↔
      OnWalk graph.toNodeGraph destination trigger c := by
    intro c
    constructor
    · intro hc
      exact (hright.main c (isMain_of_kept hc).2).mp ((hvalues c).mpr (.inl hc))
    · intro hc
      have htype := (isMain_of_onWalk hc).2
      rcases (hvalues c).mp ((hright.main c htype).mpr hc) with hc | ⟨-, hsub, -⟩
      · exact hc
      · exact absurd htype hsub
  refine ⟨forall_kept_iff_onWalk_iff.mp hkept, fun c hc htype root hroot hpath => ?_⟩
  have hupstream := (keptUpstream_iff hkept c).mpr ⟨hc, htype, root, hroot, hpath⟩
  exact ((hright.rest c htype).mp ((hvalues c).mpr (.inr hupstream))).2

/-- **The subgraph is the right one exactly when** the trigger leads to every cycle of main
connections that leads to the destination, and no sub-node leads to the walks other than as a
sub-node of theirs. -/
theorem findsSubgraph_iff (hdestination : graph.Stores destination) :
    FindsSubgraph graph destination trigger ↔
      CyclesReached graph.toNodeGraph destination trigger ∧
        NoSubNodesUpstream graph.toNodeGraph destination trigger := by
  refine ⟨FindsSubgraph.conditions hdestination, ?_⟩
  rintro ⟨hcycles, hupstream⟩
  have hkept := forall_kept_iff_onWalk_iff.mpr hcycles
  obtain ⟨subgraph, hrun, hstores, hvalues⟩ :=
    @findSubgraph_eq graph destination trigger hdestination
  -- what is upstream is what is reached over sub-nodes
  have hsub : ∀ c, KeptUpstream graph.toNodeGraph destination trigger c ↔
      OfSubNode c ∧ c ∈ graph.connections.values ∧ ∃ root,
        WalkNode graph.toNodeGraph destination trigger root ∧ graph.Path OfSubNode c.to root := by
    intro c
    rw [keptUpstream_iff hkept]
    constructor
    · rintro ⟨hc, htype, root, hroot, hpath⟩
      exact ⟨htype, hc, hupstream c hc htype root hroot hpath⟩
    · rintro ⟨htype, hc, root, hroot, hpath⟩
      exact ⟨hc, htype, root, hroot, NodeGraph.path_of_kind hpath⟩
  refine ⟨subgraph, hrun, fun c htype => ?_, fun c htype => ?_, fun node => ?_⟩
  · rw [hvalues, hkept]
    exact or_iff_left fun h => h.2.1 htype
  · have hmain : ¬ KeptConnection graph.toNodeGraph destination trigger c :=
      fun h => htype (isMain_of_kept h).2
    rw [hvalues, or_iff_right hmain, hsub]
    exact and_iff_right htype
  · rw [hstores, keptNode_iff hkept]
    constructor
    · rintro (hnode | ⟨c, hc, hnode⟩)
      · exact ⟨node, hnode, .refl⟩
      · obtain ⟨htype, hc, root, hroot, hpath⟩ := (hsub c).mp hc
        simp only [NodeConnection.ends, List.mem_cons, List.not_mem_nil, or_false] at hnode
        rcases hnode with rfl | rfl
        · exact ⟨root, hroot, .head ⟨c, hc, htype, rfl, rfl⟩ hpath⟩
        · exact ⟨root, hroot, hpath⟩
    · rintro ⟨root, hroot, hpath⟩
      rcases Relation.ReflTransGen.cases_head hpath with rfl | ⟨next, hstep, hrest⟩
      · exact .inl hroot
      · obtain ⟨c, hc, htype, rfl, rfl⟩ := hstep
        exact .inr ⟨c, (hsub c).mpr ⟨htype, hc, root, hroot, hrest⟩, List.mem_cons_self⟩

end Right

def lineGraph : IntactGraph where
  toNodeGraph := (NodeGraph.empty.addNodes [⟨"Trigger", 0⟩, ⟨"Filter", 1⟩]).setConnection
    ⟨⟨"Trigger", 0⟩, ⟨"Filter", 1⟩, "main", 0, 0⟩
  endsStored := by
    unfold NodeGraph.EndsStored
    decide

/-- The subgraph of a trigger and the node after it. -/
theorem findsSubgraph_line : FindsSubgraph lineGraph ⟨"Filter", 1⟩ ⟨"Trigger", 0⟩ := by
  refine (@findsSubgraph_iff lineGraph ⟨"Filter", 1⟩ ⟨"Trigger", 0⟩ (by decide)).mpr ⟨?_, ?_⟩
  · have hfrom : ∀ c ∈ lineGraph.connections.values, c.from = ⟨"Trigger", 0⟩ := by decide
    intro x cycle w hne hcycle _ hinner _
    obtain ⟨c, rest, rfl⟩ := List.exists_cons_of_ne_nil hne
    exact absurd (hfrom c hcycle.1.1) (hinner c List.mem_cons_self).1
  · intro c hc htype
    have hmain : ∀ c ∈ lineGraph.connections.values, ¬ OfSubNode c := by decide
    exact absurd htype (hmain c hc)

/-! ## Graphs with too much in their subgraph -/

/-- Two nodes in a cycle that leads to the node after a trigger. -/
def looseCycle : IntactGraph where
  toNodeGraph :=
    ((((NodeGraph.empty.addNodes [⟨"Trigger", 0⟩, ⟨"Set", 1⟩, ⟨"A", 2⟩, ⟨"B", 3⟩]).setConnection
      ⟨⟨"Trigger", 0⟩, ⟨"Set", 1⟩, "main", 0, 0⟩).setConnection
      ⟨⟨"A", 2⟩, ⟨"Set", 1⟩, "main", 0, 0⟩).setConnection
      ⟨⟨"A", 2⟩, ⟨"B", 3⟩, "main", 0, 0⟩).setConnection ⟨⟨"B", 3⟩, ⟨"A", 2⟩, "main", 0, 0⟩
  endsStored := by
    unfold NodeGraph.EndsStored
    decide

/-- An agent with a model, before the node after a trigger. -/
def looseAgent : IntactGraph where
  toNodeGraph :=
    (((NodeGraph.empty.addNodes
      [⟨"Trigger", 0⟩, ⟨"Set", 1⟩, ⟨"Agent", 2⟩, ⟨"Model", 3⟩]).setConnection
      ⟨⟨"Trigger", 0⟩, ⟨"Set", 1⟩, "main", 0, 0⟩).setConnection
      ⟨⟨"Agent", 2⟩, ⟨"Set", 1⟩, "main", 0, 0⟩).setConnection
      ⟨⟨"Model", 3⟩, ⟨"Agent", 2⟩, "ai_languageModel", 0, 0⟩
  endsStored := by
    unfold NodeGraph.EndsStored
    decide

theorem not_fromStart_looseCycle : ¬ BranchSearch.FromStart looseCycle.IsMain NodeConnection.from
    NodeConnection.to ⟨"Trigger", 0⟩ ⟨"Set", 1⟩ ⟨"A", 2⟩ := by
  have htrigger : ∀ c ∈ looseCycle.connections.values, c.from = ⟨"Trigger", 0⟩ →
      c.to = ⟨"Set", 1⟩ := by decide
  have hset : ∀ c ∈ looseCycle.connections.values, c.from ≠ ⟨"Set", 1⟩ := by decide
  rintro ⟨w, hw, -⟩
  cases w with
  | nil => exact absurd (show (⟨"Trigger", 0⟩ : INode) = ⟨"A", 2⟩ from hw) (by decide)
  | cons c w =>
    obtain ⟨hc, hfrom, hrest⟩ := hw
    rw [htrigger c hc.1 hfrom] at hrest
    cases w with
    | nil => exact absurd (show (⟨"Set", 1⟩ : INode) = ⟨"A", 2⟩ from hrest) (by decide)
    | cons d w => exact hset d hrest.1.1 hrest.2.1

/-- The cycle is kept, and so is the model with its agent, although the trigger leads to neither. -/
theorem not_findsSubgraph :
    ¬ FindsSubgraph looseCycle ⟨"Set", 1⟩ ⟨"Trigger", 0⟩ ∧
      ¬ FindsSubgraph looseAgent ⟨"Set", 1⟩ ⟨"Trigger", 0⟩ := by
  constructor
  · intro h
    have hcycles := (h.conditions (by decide)).1
    rw [CyclesReached, if_neg (by decide)] at hcycles
    refine not_fromStart_looseCycle (hcycles ⟨"A", 2⟩
      [⟨⟨"A", 2⟩, ⟨"B", 3⟩, "main", 0, 0⟩, ⟨⟨"B", 3⟩, ⟨"A", 2⟩, "main", 0, 0⟩]
      [⟨⟨"A", 2⟩, ⟨"Set", 1⟩, "main", 0, 0⟩] (List.cons_ne_nil _ _) ?_ ?_ ?_ ?_)
    · exact ⟨⟨by decide, rfl⟩, rfl, ⟨by decide, rfl⟩, rfl, rfl⟩
    · exact ⟨⟨by decide, rfl⟩, rfl, rfl⟩
    · unfold BranchSearch.Inner
      decide
    · unfold BranchSearch.Inner
      decide
  · intro h
    have hupstream := (h.conditions (by decide)).2
    have hwalk : WalkNode looseAgent.toNodeGraph ⟨"Set", 1⟩ ⟨"Trigger", 0⟩ ⟨"Set", 1⟩ := by
      refine ⟨[⟨⟨"Trigger", 0⟩, ⟨"Set", 1⟩, "main", 0, 0⟩], ⟨⟨by decide, rfl⟩, rfl, rfl⟩, ?_, ?_⟩
      · intro c hc
        cases hc
      · exact .inr ⟨_, List.mem_singleton_self _, rfl⟩
    have hpath : looseAgent.Path (fun _ => True) ⟨"Agent", 2⟩ ⟨"Set", 1⟩ :=
      .single ⟨⟨⟨"Agent", 2⟩, ⟨"Set", 1⟩, "main", 0, 0⟩, by decide, trivial, rfl, rfl⟩
    obtain ⟨root, ⟨w, hw, -, hroot⟩, hsub⟩ := hupstream
      ⟨⟨"Model", 3⟩, ⟨"Agent", 2⟩, "ai_languageModel", 0, 0⟩ (by decide) (by decide) _ hwalk hpath
    -- the agent is a sub-node of no node, and no main connection leads to it
    have hagent : ∀ c ∈ looseAgent.connections.values, OfSubNode c → c.from ≠ ⟨"Agent", 2⟩ := by
      decide
    have hmain : ∀ c ∈ looseAgent.connections.values, c.type = "main" → c.to ≠ ⟨"Agent", 2⟩ := by
      decide
    rcases Relation.ReflTransGen.cases_head hsub with rfl | ⟨next, ⟨c, hc, htype, hfrom, -⟩, -⟩
    · rcases hroot with heq | ⟨c, hc, hto⟩
      · exact absurd heq (by decide)
      · have hedge := hw.edge_of_mem hc
        exact hmain c hedge.1 hedge.2 hto
    · exact hagent c hc htype hfrom

end N8n.PartialExecution
