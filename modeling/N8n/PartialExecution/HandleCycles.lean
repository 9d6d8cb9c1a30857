import N8n.Foundations.DepthFirstOrder
import N8n.Foundations.OrderedSet
import N8n.PartialExecution.StronglyConnected

/-!
# Moving start nodes out of cycles

A start node on a cycle is replaced by the first node of its strongly connected component that a
depth-first search from the trigger meets, so that no cycle is executed in part.

## Main definitions

* `depthFirstSearch`, `handleCycles`: the program
* `IsEntry`: the first node of a component that the search meets
* `MovedOut`: what the new start nodes should be

## Main results

* `depthFirstSearch_eq`: the search returns the first node in its order
* `movesStartNodesOut_iff`: start nodes are moved out of cycles exactly when the search for
  components finds them
* `not_movesStartNodesOut`: a loop in a loop
-/

namespace N8n.PartialExecution

open OrderedSet

open ComponentSearch (Reach Mutual Traversal traverseFrom)

namespace DirectedGraph

/-! ## The program -/

section Program

variable (graph : DirectedGraph)

/-- Returns the node that is found, if any, and the nodes that were seen. `fuel` bounds the depth of
the recursion. -/
def depthFirstSearchRecursive (fn : String → Bool) :
    ℕ → List String → String → Option String × List String
  | 0, seen, _ => (none, seen)
  | fuel + 1, seen, «from» =>
    if «from» ∈ seen then (none, seen)
    else if fn «from» then (some «from», seen ++ [«from»])
    else
      (graph.directChildren «from»).foldl (fun search child =>
        match search.1 with
        | some found => (some found, search.2)
        | none => depthFirstSearchRecursive fn fuel search.2 child) (none, seen ++ [«from»])

def depthFirstSearch («from» : String) (fn : String → Bool) : Option String :=
  (graph.depthFirstSearchRecursive fn (graph.nodes.length + 1) [] «from»).1

def notConnected : String :=
  "the trigger must be connected to the cycle, otherwise the cycle wouldn't be part of the subgraph"

/-- Replace a start node by the first node of a component, if it is part of the component. -/
def replaceStartNode (trigger startNode : String) (newStartNodes : OrderedSet String)
    (cycle : List String) : Except String (OrderedSet String) :=
  if startNode ∈ cycle then
    match graph.depthFirstSearch trigger (· ∈ cycle) with
    | some firstNode => .ok ((newStartNodes.delete startNode).insert firstNode)
    | none => .error notConnected
  else .ok newStartNodes

def handleCycles (startNodes : OrderedSet String) (trigger : String) :
    Except String (OrderedSet String) :=
  let cycles := graph.getStronglyConnectedComponents.filter fun cycle => cycle.length ≥ 1
  if cycles.length = 0 then .ok startNodes
  else
    startNodes.elements.foldlM (fun newStartNodes startNode =>
      cycles.foldlM (graph.replaceStartNode trigger startNode) newStartNodes) startNodes

end Program

/-! ## What it is for -/

section Purpose

variable (graph : DirectedGraph) (trigger : String)

def OnCycle (node : String) : Prop :=
  Relation.TransGen (fun a b => b ∈ graph.directChildren a) node node

/-- The nodes in the order in which a depth-first walk from the trigger meets them. -/
def walkOrder : List String :=
  (traverseFrom graph.directChildren (graph.nodes.length + 1) ⟨[], []⟩ trigger).order

/-- The first node of the strongly connected component of a node that the walk meets. -/
def IsEntry (node entry : String) : Prop :=
  Mutual graph.directChildren node entry ∧
    First graph.directChildren (graph.walkOrder trigger) entry

structure MovedOut (startNodes result : OrderedSet String) : Prop where
  mem_iff : ∀ node, node ∈ result ↔ ∃ start ∈ startNodes,
    graph.OnCycle start ∧ graph.IsEntry trigger start node ∨
      ¬ graph.OnCycle start ∧ node = start
  /-- A path from the trigger to the node meets no other node of its component. -/
  entered : ∀ node ∈ result, Relation.ReflTransGen (fun a b => b ∈ graph.directChildren a ∧
    ¬ Mutual graph.directChildren node a) trigger node

/-- The start nodes are moved out of cycles, whatever the trigger and the start nodes are. -/
def MovesStartNodesOut : Prop :=
  ∀ trigger ∈ graph.nodes, ∀ startNodes : OrderedSet String,
    (∀ start ∈ startNodes, Reach graph.directChildren trigger start) →
      ∃ result, graph.handleCycles startNodes trigger = .ok result ∧
        graph.MovedOut trigger startNodes result

end Purpose

/-! ## The search -/

section Search

variable {graph : DirectedGraph} {fn : String → Bool} {trigger node start entry : String}
  {visit : List String → String → Option String × List String}

/-- A search that found a node is over. -/
theorem foldl_of_found (children : List String) (found : String) (seen : List String) :
    children.foldl (fun search child =>
      match search.1 with
      | some found => (some found, search.2)
      | none => visit search.2 child) (some found, seen) = (some found, seen) := by
  induction children with
  | nil => rfl
  | cons child children ih => exact ih

/-- The search sees the nodes in the order of the walk, up to the one that it finds. -/
structure Finds (fn : String → Bool) (order order' : List String)
    (search : Option String × List String) : Prop where
  found : ∃ new, order' = order ++ new ∧ search.1 = new.find? fn
  seen : search.1 = none → search.2 = order'

theorem foldl_finds
    {follow : Traversal String → String → Traversal String} {children : List String}
    (hvisit : ∀ (d : Traversal String) (child : String),
      Finds fn d.order (follow d child).order (visit d.order child)) (d : Traversal String) :
    Finds fn d.order (children.foldl (Traversal.follow follow node) d).order
      (children.foldl (fun search child =>
        match search.1 with
        | some found => (some found, search.2)
        | none => visit search.2 child) (none, d.order)) := by
  induction children generalizing d with
  | nil => exact ⟨⟨[], by simp, rfl⟩, fun _ => rfl⟩
  | cons child children ih =>
    obtain ⟨⟨new, hnew, hfound⟩, hseen⟩ := hvisit d child
    obtain ⟨⟨new', hnew', hfound'⟩, hseen'⟩ := ih (Traversal.follow follow node d child)
    have horder : (children.foldl (Traversal.follow follow node)
        (Traversal.follow follow node d child)).order = d.order ++ (new ++ new') := by
      rw [hnew', ← List.append_assoc, ← hnew]
      rfl
    rw [List.foldl_cons, List.foldl_cons]
    cases hsearch : visit d.order child with
    | mk result seen =>
      rw [hsearch] at hfound hseen
      cases result with
      | some found =>
        have hsome : new.find? fn = some found := hfound.symm
        refine ⟨⟨new ++ new', horder, ?_⟩, ?_⟩
        · simp only [foldl_of_found, List.find?_append, hsome, Option.some_or]
        · simp only [foldl_of_found, reduceCtorEq, IsEmpty.forall_iff]
      | none =>
        have hnone : new.find? fn = none := hfound.symm
        have hsame : seen = (Traversal.follow follow node d child).order := hseen rfl
        subst hsame
        refine ⟨⟨new ++ new', horder, ?_⟩, hseen'⟩
        rw [List.find?_append, hnone, Option.none_or]
        exact hfound'

theorem depthFirstSearchRecursive_finds (fn : String → Bool) (fuel : ℕ) (d : Traversal String)
    (node : String) : Finds fn d.order (traverseFrom graph.directChildren fuel d node).order
      (graph.depthFirstSearchRecursive fn fuel d.order node) := by
  induction fuel generalizing d node with
  | zero => exact ⟨⟨[], by simp [traverseFrom], rfl⟩, fun _ => rfl⟩
  | succ fuel ih =>
    unfold depthFirstSearchRecursive traverseFrom
    by_cases hseen : node ∈ d.order
    · rw [if_pos hseen, if_pos hseen]
      exact ⟨⟨[], by simp, rfl⟩, fun _ => rfl⟩
    · rw [if_neg hseen, if_neg hseen]
      obtain ⟨⟨new, hnew, hfound⟩, hrest⟩ := @foldl_finds fn node _ _ (graph.directChildren node)
        (fun d child => ih d child) ⟨d.order ++ [node], d.log⟩
      have horder := hnew.trans (List.append_assoc d.order [node] new)
      by_cases hfn : fn node = true
      · rw [if_pos hfn]
        exact ⟨⟨node :: new, horder, by simp [hfn]⟩, fun h => by simp at h⟩
      · rw [if_neg hfn]
        refine ⟨⟨node :: new, horder, ?_⟩, hrest⟩
        rw [List.find?_cons_of_neg hfn]
        exact hfound

/-- **The search returns the first node in the order of the walk** that it looks for. -/
theorem depthFirstSearch_eq (fn : String → Bool) :
    graph.depthFirstSearch trigger fn = (graph.walkOrder trigger).find? fn := by
  obtain ⟨new, hnew, hfound⟩ := (@depthFirstSearchRecursive_finds graph fn
    (graph.nodes.length + 1) ⟨[], []⟩ trigger).found
  have horder : graph.walkOrder trigger = new := hnew.trans (List.nil_append new)
  rw [horder]
  exact hfound

/-! ## The order of the walk -/

theorem succ_mem_nodes (a b : String) (h : b ∈ graph.directChildren a) :
    b ∈ graph.nodes.toFinset :=
  List.mem_toFinset.mpr (directChildren_mem h)

theorem card_nodes_le : graph.nodes.toFinset.card ≤ graph.nodes.length + 1 :=
  (List.toFinset_card_le _).trans (Nat.le_succ _)

variable (htrigger : trigger ∈ graph.nodes)
include htrigger

theorem mem_walkOrder : node ∈ graph.walkOrder trigger ↔ Reach graph.directChildren trigger node :=
  ComponentSearch.mem_traverseFrom_iff succ_mem_nodes (List.mem_toFinset.mpr htrigger)
    card_nodes_le

theorem nodup_walkOrder : (graph.walkOrder trigger).Nodup :=
  ComponentSearch.nodup_traverseFrom succ_mem_nodes (List.mem_toFinset.mpr htrigger) card_nodes_le

theorem mem_nodes_of_reach (h : Reach graph.directChildren trigger node) : node ∈ graph.nodes := by
  rcases Relation.ReflTransGen.cases_tail h with rfl | ⟨_, -, hedge⟩
  · exact htrigger
  · exact directChildren_mem hedge

/-- The entry of a component is what the search for the component returns. -/
theorem isEntry_iff_find? (hfn : ∀ other ∈ graph.nodes,
      (fn other = true ↔ Mutual graph.directChildren node other)) :
    graph.IsEntry trigger node entry ↔ (graph.walkOrder trigger).find? fn = some entry := by
  have hmem : ∀ other ∈ graph.walkOrder trigger, other ∈ graph.nodes := fun other hin =>
    mem_nodes_of_reach htrigger ((mem_walkOrder htrigger).mp hin)
  rw [List.find?_eq_some_iff_append]
  constructor
  · rintro ⟨hmutual, before, after, horder, hbefore⟩
    have hentry : entry ∈ graph.nodes := hmem entry (by simp [horder])
    refine ⟨(hfn entry hentry).mpr hmutual, before, after, horder, fun other hin => ?_⟩
    rw [Bool.not_eq_true', ← Bool.not_eq_true, hfn other (hmem other (by simp [horder, hin]))]
    exact fun h => hbefore other hin (hmutual.symm.trans h)
  · rintro ⟨hfound, before, after, horder, hbefore⟩
    have hmutual := (hfn entry (hmem entry (by simp [horder]))).mp hfound
    refine ⟨hmutual, before, after, horder, fun other hin hother => ?_⟩
    have hnot := hbefore other hin
    rw [Bool.not_eq_true', ← Bool.not_eq_true, hfn other (hmem other (by simp [horder, hin]))]
      at hnot
    exact hnot (hmutual.trans hother)

/-- A component that the trigger leads to has one entry. -/
theorem exists_isEntry (hreach : Reach graph.directChildren trigger node) :
    ∃ entry, graph.IsEntry trigger node entry ∧
      ∀ other, graph.IsEntry trigger node other → other = entry := by
  classical
  have hfn : ∀ other ∈ graph.nodes, (decide (Mutual graph.directChildren node other) = true ↔
      Mutual graph.directChildren node other) := fun other _ => decide_eq_true_iff
  have hsome : ((graph.walkOrder trigger).find?
      fun other => decide (Mutual graph.directChildren node other)).isSome := by
    rw [List.find?_isSome]
    exact ⟨node, (mem_walkOrder htrigger).mpr hreach, decide_eq_true (.refl node)⟩
  obtain ⟨entry, hentry⟩ := Option.isSome_iff_exists.mp hsome
  refine ⟨entry, (isEntry_iff_find? htrigger hfn).mpr hentry, fun other hother => ?_⟩
  rw [isEntry_iff_find? htrigger hfn, hentry] at hother
  exact (Option.some.inj hother).symm

/-- The walk gets to an entry without another node of its component. -/
theorem IsEntry.entered (h : graph.IsEntry trigger node entry) :
    Relation.ReflTransGen (fun a b => b ∈ graph.directChildren a ∧
      ¬ Mutual graph.directChildren entry a) trigger entry := by
  obtain ⟨before, after, horder, hbefore⟩ := h.2
  have hpath : Relation.ReflTransGen
      (ComponentSearch.Forward graph.directChildren (graph.walkOrder trigger)) trigger entry :=
    ComponentSearch.forward_traverseFrom succ_mem_nodes (List.mem_toFinset.mpr htrigger)
      card_nodes_le (show entry ∈ graph.walkOrder trigger by simp [horder])
  have havoid := ComponentSearch.path_before (nodup_walkOrder htrigger) horder hpath
  exact Relation.ReflTransGen.mono (fun a _ hab => ⟨hab.1, hbefore a hab.2⟩) trigger entry havoid

end Search

/-! ## Replacing start nodes -/

section Replacing

variable {graph : DirectedGraph} {trigger node start entry : String}
  {startNodes newStartNodes : OrderedSet String} {cycles : List (List String)}

theorem onCycle_of_mutual (h : Mutual graph.directChildren node entry) (hne : entry ≠ node) :
    graph.OnCycle node := by
  rcases Relation.reflTransGen_iff_eq_or_transGen.mp h.1 with heq | hpath
  · exact absurd heq hne
  · exact hpath.trans_left h.2

/-- A node that is on no cycle is the entry of its component. -/
theorem isEntry_of_not_onCycle (hstart : ¬ graph.OnCycle start)
    (hentry : graph.IsEntry trigger start entry) : entry = start := by
  by_contra hne
  exact hstart (onCycle_of_mutual hentry.1 hne)

theorem foldlM_replaceStartNode_of_not_mem (hnot : ∀ cycle ∈ cycles, start ∉ cycle)
    (newStartNodes : OrderedSet String) :
    cycles.foldlM (graph.replaceStartNode trigger start) newStartNodes = .ok newStartNodes := by
  induction cycles with
  | nil => rfl
  | cons cycle cycles ih =>
    rw [List.foldlM_cons, replaceStartNode, if_neg (hnot cycle List.mem_cons_self)]
    exact ih fun cycle hc => hnot cycle (List.mem_cons_of_mem _ hc)

/-- One start node, when the components are right. -/
theorem foldlM_replaceStartNode (hpartition : graph.IsPartition cycles)
    (htrigger : trigger ∈ graph.nodes) (hstart : start ∈ graph.nodes)
    (hentry : graph.IsEntry trigger start entry) (newStartNodes : OrderedSet String) :
    cycles.foldlM (graph.replaceStartNode trigger start) newStartNodes =
      .ok ((newStartNodes.delete start).insert entry) := by
  obtain ⟨cycle, hcycle, hin⟩ := (hpartition.cover start).mpr hstart
  obtain ⟨before, after, rfl⟩ := List.append_of_mem hcycle
  obtain ⟨hbefore, hafter, hapart⟩ := List.pairwise_append.mp hpartition.disjoint
  have hnotBefore : ∀ other ∈ before, start ∉ other := fun other hother hmem =>
    hapart other hother cycle List.mem_cons_self hmem hin
  have hnotAfter : ∀ other ∈ after, start ∉ other := fun other hother hmem =>
    (List.pairwise_cons.mp hafter).1 other hother hin hmem
  have hfn : ∀ other ∈ graph.nodes, (decide (other ∈ cycle) = true ↔
      Mutual graph.directChildren start other) := by
    intro other hother
    rw [decide_eq_true_iff, ← hpartition.classes start hstart other hother]
    constructor
    · intro hmem
      exact ⟨cycle, hcycle, hin, hmem⟩
    · rintro ⟨cycle', hcycle', hin', hmem⟩
      rcases List.mem_append.mp hcycle' with hc | hc
      · exact absurd hin' (hnotBefore cycle' hc)
      · rcases List.mem_cons.mp hc with rfl | hc
        · exact hmem
        · exact absurd hin' (hnotAfter cycle' hc)
  have hfound : graph.depthFirstSearch trigger (fun other => decide (other ∈ cycle)) =
      some entry := by
    rw [depthFirstSearch_eq]
    exact (isEntry_iff_find? htrigger hfn).mp hentry
  have hreplace : graph.replaceStartNode trigger start newStartNodes cycle =
      .ok ((newStartNodes.delete start).insert entry) := by
    rw [replaceStartNode, if_pos hin, hfound]
  rw [List.foldlM_append, foldlM_replaceStartNode_of_not_mem hnotBefore]
  show (cycle :: after).foldlM (graph.replaceStartNode trigger start) newStartNodes = _
  rw [List.foldlM_cons, hreplace]
  exact foldlM_replaceStartNode_of_not_mem hnotAfter _

/-- **The loop over the start nodes**: those that it was at are replaced by entries. -/
theorem foldlM_startNodes (hpartition : graph.IsPartition cycles) (htrigger : trigger ∈ graph.nodes)
    {done rest : List String} (hnodup : (done ++ rest).Nodup)
    (hreach : ∀ start ∈ done ++ rest, Reach graph.directChildren trigger start)
    (hmem : ∀ node, node ∈ newStartNodes ↔
      node ∈ rest ∨ ∃ start ∈ done, graph.IsEntry trigger start node) :
    ∃ result, rest.foldlM (fun newStartNodes startNode =>
        cycles.foldlM (graph.replaceStartNode trigger startNode) newStartNodes) newStartNodes =
          .ok result ∧
      ∀ node, node ∈ result ↔ ∃ start ∈ done ++ rest, graph.IsEntry trigger start node := by
  induction rest generalizing done newStartNodes with
  | nil =>
    refine ⟨newStartNodes, rfl, fun node => ?_⟩
    rw [hmem, List.append_nil, or_iff_right List.not_mem_nil]
  | cons start rest ih =>
    have hin : start ∈ done ++ start :: rest := List.mem_append_right _ List.mem_cons_self
    obtain ⟨entry, hentry, hunique⟩ := exists_isEntry htrigger (hreach start hin)
    have hstart := mem_nodes_of_reach htrigger (hreach start hin)
    have hsplit : (done ++ [start]) ++ rest = done ++ start :: rest := by simp
    have hfresh : start ∉ rest := (List.nodup_cons.mp (List.nodup_append.mp hnodup).2.1).1
    have hnext : ∀ node, node ∈ (newStartNodes.delete start).insert entry ↔
        node ∈ rest ∨ ∃ other ∈ done ++ [start], graph.IsEntry trigger other node := by
      intro node
      rw [mem_insert, mem_delete, hmem, List.mem_cons]
      constructor
      · rintro (rfl | ⟨hne, (heq | hrest) | ⟨other, hother, hnode⟩⟩)
        · exact .inr ⟨start, by simp, hentry⟩
        · exact absurd heq hne
        · exact .inl hrest
        · exact .inr ⟨other, List.mem_append_left _ hother, hnode⟩
      · rintro (hrest | ⟨other, hother, hnode⟩)
        · exact .inr ⟨fun heq => hfresh (heq ▸ hrest), .inl (.inr hrest)⟩
        · rcases List.mem_append.mp hother with hother | hother
          · by_cases heq : node = start
            · -- the entry of another start node is the start node itself
              subst heq
              exact .inl (hunique node ⟨.refl node, hnode.2⟩)
            · exact .inr ⟨heq, .inr ⟨other, hother, hnode⟩⟩
          · rw [List.mem_singleton.mp hother] at hnode
            exact .inl (hunique node hnode)
    obtain ⟨result, hrun, hresult⟩ := ih (hsplit ▸ hnodup) (hsplit ▸ hreach) hnext
    refine ⟨result, ?_, hsplit ▸ hresult⟩
    rw [List.foldlM_cons, foldlM_replaceStartNode hpartition htrigger hstart hentry]
    exact hrun

/-- The new start nodes are the entries of the components. -/
theorem movedOut_of_entries (htrigger : trigger ∈ graph.nodes)
    (hreach : ∀ start ∈ startNodes, Reach graph.directChildren trigger start)
    (hmem : ∀ node, node ∈ newStartNodes ↔ ∃ start ∈ startNodes, graph.IsEntry trigger start node) :
    graph.MovedOut trigger startNodes newStartNodes where
  mem_iff node := by
    rw [hmem]
    refine exists_congr fun start => and_congr_right fun hstart => ?_
    by_cases hcycle : graph.OnCycle start
    · simp [hcycle]
    · obtain ⟨entry, hentry, -⟩ := exists_isEntry htrigger (hreach start hstart)
      have hself : graph.IsEntry trigger start start :=
        isEntry_of_not_onCycle hcycle hentry ▸ hentry
      simp only [hcycle, false_and, false_or, not_false_eq_true, true_and]
      refine ⟨isEntry_of_not_onCycle hcycle, ?_⟩
      rintro rfl
      exact hself
  entered node hnode := by
    obtain ⟨start, -, hentry⟩ := (hmem node).mp hnode
    exact hentry.entered htrigger

theorem isPartition_filter (h : graph.IsPartition cycles) :
    graph.IsPartition (cycles.filter fun cycle => cycle.length ≥ 1) := by
  have hexists : ∀ p : List String → Prop, (∀ cycle, p cycle → cycle ≠ []) →
      ((∃ cycle ∈ cycles.filter (fun cycle => cycle.length ≥ 1), p cycle) ↔
        ∃ cycle ∈ cycles, p cycle) := by
    intro p hp
    refine exists_congr fun cycle => ?_
    rw [List.mem_filter]
    have hlength : p cycle → cycle.length ≥ 1 := fun h => List.length_pos_of_ne_nil (hp cycle h)
    simp only [ge_iff_le, decide_eq_true_eq]
    tauto
  refine ⟨h.disjoint.filter _, fun node => ?_, fun a ha b hb => ?_⟩
  · rw [← h.cover node]
    exact hexists _ fun cycle hin hnil => List.not_mem_nil (hnil ▸ hin)
  · rw [← h.classes a ha b hb]
    exact hexists _ fun cycle hin hnil => List.not_mem_nil (hnil ▸ hin.1)

theorem movesStartNodesOut_of_isPartition
    (h : graph.IsPartition graph.getStronglyConnectedComponents) : graph.MovesStartNodesOut := by
  intro trigger htrigger startNodes hreach
  have hpartition := isPartition_filter h
  have hcycles : ¬ (graph.getStronglyConnectedComponents.filter
      fun cycle => cycle.length ≥ 1).length = 0 := by
    intro hzero
    obtain ⟨cycle, hcycle, -⟩ := (hpartition.cover trigger).mpr htrigger
    rw [List.length_eq_zero_iff.mp hzero] at hcycle
    exact List.not_mem_nil hcycle
  have hnodup : ([] ++ startNodes.elements).Nodup := startNodes.nodup
  obtain ⟨result, hrun, hmem⟩ := foldlM_startNodes hpartition htrigger hnodup hreach fun node =>
    show node ∈ startNodes ↔ node ∈ startNodes.elements ∨ _ by simp [mem_def]
  refine ⟨result, ?_, movedOut_of_entries htrigger hreach hmem⟩
  rw [handleCycles, if_neg hcycles]
  exact hrun

/-! ## A component that is not found -/

/-- A start node that is in no component is kept. -/
theorem handleCycles_of_missing
    (hmissing : ∀ cycle ∈ graph.getStronglyConnectedComponents, start ∉ cycle) :
    graph.handleCycles (.ofList [start]) trigger = .ok (.ofList [start]) := by
  rw [handleCycles]
  split
  · rfl
  · have hnot : ∀ cycle ∈ graph.getStronglyConnectedComponents.filter
        (fun cycle => cycle.length ≥ 1), start ∉ cycle :=
      fun cycle hcycle => hmissing cycle (List.mem_filter.mp hcycle).1
    have hone : (ofList [start]).elements = [start] := rfl
    rw [hone, List.foldlM_cons, foldlM_replaceStartNode_of_not_mem hnot]
    rfl

/-- The start node is kept although a node of its component is met before it. -/
theorem not_movesStartNodesOut_of_missing {other : String} (hother : other ∈ graph.nodes)
    (hmissing : ∀ cycle ∈ graph.getStronglyConnectedComponents, start ∉ cycle)
    (hmutual : Mutual graph.directChildren start other) (hne : other ≠ start) :
    ¬ graph.MovesStartNodesOut := by
  intro h
  obtain ⟨result, hrun, hmoved⟩ := h other hother (.ofList [start]) fun node hnode => by
    rw [List.mem_singleton.mp (mem_ofList.mp hnode)]
    exact hmutual.2
  rw [handleCycles_of_missing hmissing] at hrun
  cases hrun
  -- the path from the other node to the start node meets the other node
  have hpath := hmoved.entered start (mem_ofList.mpr (List.mem_singleton_self start))
  rcases Relation.ReflTransGen.cases_head hpath with heq | ⟨_, ⟨-, hnot⟩, -⟩
  · exact hne heq
  · exact hnot hmutual

/-- If a component does not drain to its first node, its first node is in no component that is
found. -/
theorem exists_missing (h : ¬ graph.DrainsFirst) : ∃ first other, other ∈ graph.nodes ∧
    (∀ cycle ∈ graph.getStronglyConnectedComponents, first ∉ cycle) ∧
      Mutual graph.directChildren first other ∧ other ≠ first := by
  have hempty : Right graph ComponentSearch.State.empty ⟨[], []⟩ :=
    ⟨by simp, .empty, ⟨rfl, by simp [ComponentSearch.State.empty]⟩,
      by simp [Drained, ComponentSearch.State.empty]⟩
  rcases foldl_nodes_spec (fun _ h => h) (Nat.le_succ graph.nodes.length) .empty hempty
    with ⟨t, hrun, hr, -⟩ | ⟨first, hfirst, id, other, hstuck, -, -, -, -, hmutual, hdrains⟩
  · exact absurd (isPartition_of_runAll hrun hr).2 h
  · refine ⟨first, other, mem_nodes_of_reach hfirst hmutual.1, hstuck.not_emitted, hmutual, ?_⟩
    rintro rfl
    exact hdrains (.refl _ _)

/-- **When start nodes are moved out of cycles**, for every trigger and all start nodes: exactly
when every component drains to its first node. -/
theorem movesStartNodesOut_iff (graph : DirectedGraph) :
    graph.MovesStartNodesOut ↔ graph.DrainsFirst := by
  constructor
  · intro h
    by_contra hdrains
    obtain ⟨first, other, hother, hmissing, hmutual, hne⟩ := exists_missing hdrains
    exact not_movesStartNodesOut_of_missing hother hmissing hmutual hne h
  · intro h
    exact movesStartNodesOut_of_isPartition ((isPartition_iff_drainsFirst graph).mpr h)

end Replacing

/-! ## A loop in a loop -/

/-- A loop of `a` and `b` that is entered from `root`, with a way back to `root` that is followed
after the loop, and a trigger before it. -/
def triggeredLoops : Option DirectedGraph := do
  let graph := (((DirectedGraph.empty.addNode "Trigger").addNode "root").addNode "a").addNode "b"
  let graph ← graph.addConnection ⟨"Trigger", "root", "main", 0, 0⟩
  let graph ← graph.addConnection ⟨"root", "a", "main", 0, 0⟩
  let graph ← graph.addConnection ⟨"a", "b", "main", 0, 0⟩
  let graph ← graph.addConnection ⟨"a", "root", "main", 1, 0⟩
  graph.addConnection ⟨"b", "a", "main", 0, 0⟩

/-- The start node `b` is kept, although the walk meets `root` and `a` before it. -/
theorem not_movesStartNodesOut :
    ∃ graph, triggeredLoops = some graph ∧ ¬ graph.MovesStartNodesOut := by
  have hresult : triggeredLoops.map (fun graph => (graph.nodes,
      graph.getStronglyConnectedComponents, graph.nodes.map graph.directChildren)) =
      some (["Trigger", "root", "a", "b"], [], [["root"], ["a"], ["b", "root"], ["a"]]) := by
    decide
  obtain ⟨graph, hgraph, hvalue⟩ := Option.map_eq_some_iff.mp hresult
  obtain ⟨hnodes, hnone, hchildren⟩ : graph.nodes = ["Trigger", "root", "a", "b"] ∧
      graph.getStronglyConnectedComponents = [] ∧
      graph.nodes.map graph.directChildren = [["root"], ["a"], ["b", "root"], ["a"]] := by
    simpa only [Prod.mk.injEq] using hvalue
  rw [hnodes] at hchildren
  obtain ⟨htrigger, hroot, ha, hb⟩ : graph.directChildren "Trigger" = ["root"] ∧
      graph.directChildren "root" = ["a"] ∧ graph.directChildren "a" = ["b", "root"] ∧
      graph.directChildren "b" = ["a"] := by
    simpa using hchildren
  have hdown : Reach graph.directChildren "root" "b" :=
    (Reach.edge (by simp [hroot] : "a" ∈ graph.directChildren "root")).trans
      (Reach.edge (by simp [ha]))
  have hup : Reach graph.directChildren "b" "root" :=
    (Reach.edge (by simp [hb] : "a" ∈ graph.directChildren "b")).trans (Reach.edge (by simp [ha]))
  have hreach : Reach graph.directChildren "Trigger" "b" :=
    (Reach.edge (by simp [htrigger])).trans hdown
  refine ⟨graph, hgraph, fun h => ?_⟩
  have hstart : ∀ start ∈ ofList ["b"], Reach graph.directChildren "Trigger" start := by
    intro start hin
    rw [List.mem_singleton.mp (mem_ofList.mp hin)]
    exact hreach
  obtain ⟨result, hrun, hmoved⟩ := h "Trigger" (by simp [hnodes]) (.ofList ["b"]) hstart
  rw [handleCycles_of_missing (by simp [hnone])] at hrun
  cases hrun
  -- every path from the trigger to `b` meets `root`
  have hpath := hmoved.entered "b" (mem_ofList.mpr (List.mem_singleton_self "b"))
  rcases Relation.ReflTransGen.cases_head hpath with heq | ⟨next, ⟨hnext, -⟩, hrest⟩
  · exact absurd heq (by decide)
  · rw [htrigger, List.mem_singleton] at hnext
    subst hnext
    rcases Relation.ReflTransGen.cases_head hrest with heq | ⟨_, ⟨-, hnot⟩, -⟩
    · exact absurd heq (by decide)
    · exact hnot ⟨hup, hdown⟩

end DirectedGraph

end N8n.PartialExecution
