import N8n.Engine.Graph
import N8n.Foundations.ComponentSearch
import Mathlib.Data.List.Pairwise

/-!
# Strongly connected components of an execution graph

`computeSccMembership` is Tarjan's algorithm over a list of edges. It returns a map from node ids
to the members of their component, in the order the components are found.

## Main definitions

* `SccState`: the maps, the stack and the counter of the algorithm
* `connect`: the recursive search from one node
* `computeSccMembership`, `membersOf`: the resulting map and its lookup

## Main results

* `connect_run`: with enough fuel, `connect` is a component search
* `mem_members_iff`: a node of the graph is mapped to its class of mutual reachability
-/

namespace N8n.Engine

open ComponentSearch (Reach Mutual room room_le_of_grow room_enter_lt)

def targets (edges : List GraphEdge) (nodeId : String) : List String :=
  (edges.filter fun edge => edge.from = nodeId).map GraphEdge.to

/-- The state of the algorithm. The stack is kept newest first. -/
structure SccState where
  indexById : String → Option ℕ
  lowlinkById : String → ℕ
  stack : List String
  onStack : String → Bool
  membership : List (String × List String)
  nextIndex : ℕ

namespace SccState

def empty : SccState := ⟨fun _ => none, fun _ => 0, [], fun _ => false, [], 0⟩

/-- Number a node and push it. -/
def enter (st : SccState) (nodeId : String) : SccState :=
  { st with
    indexById := Function.update st.indexById nodeId (some st.nextIndex)
    lowlinkById := Function.update st.lowlinkById nodeId st.nextIndex
    nextIndex := st.nextIndex + 1
    stack := nodeId :: st.stack
    onStack := Function.update st.onStack nodeId true }

/-- Lower the lowlink of a node to `value` if that is smaller. -/
def lower (st : SccState) (nodeId : String) (value : ℕ) : SccState :=
  { st with
    lowlinkById := Function.update st.lowlinkById nodeId (min (st.lowlinkById nodeId) value) }

end SccState

/-- Pop up to and including `nodeId`: the popped ids in order, and what is left. -/
def popUntil (nodeId : String) : List String → List String × List String
  | [] => ([], [])
  | member :: rest =>
    if member = nodeId then ([member], rest)
    else (member :: (popUntil nodeId rest).1, (popUntil nodeId rest).2)

/-- Pop the component of `nodeId` and record its members. -/
def SccState.popComponent (st : SccState) (nodeId : String) : SccState :=
  let popped := popUntil nodeId st.stack
  { st with
    stack := popped.2
    onStack := fun id => if id ∈ popped.1 then false else st.onStack id
    membership := st.membership ++ popped.1.map fun id => (id, popped.1) }

/-- One turn of the loop over the outgoing edges of a node; `call` is the recursive call. -/
def followTarget (call : String → SccState → SccState) (nodeId : String) (st : SccState)
    (target : String) : SccState :=
  match st.indexById target with
  | none =>
    let st := call target st
    st.lower nodeId (st.lowlinkById target)
  | some index => if st.onStack target then st.lower nodeId index else st

/-- The search from one node. `fuel` bounds the depth of the recursion. -/
def connect (edges : List GraphEdge) : ℕ → String → SccState → SccState
  | 0, _, st => st
  | fuel + 1, nodeId, st =>
    let st := (targets edges nodeId).foldl (followTarget (connect edges fuel) nodeId)
      (st.enter nodeId)
    if some (st.lowlinkById nodeId) = st.indexById nodeId then st.popComponent nodeId else st

/-- The component search over `edges` from every node of the graph, in order. -/
def computeSccMembership (graph : WorkflowGraph) (edges : List GraphEdge) :
    List (String × List String) :=
  (graph.nodes.foldl
    (fun st node =>
      if st.indexById node.id = none then
        connect edges (graph.nodes.length + edges.length + 1) node.id st
      else st)
    SccState.empty).membership

/-- The lookup in the membership map. -/
def membersOf (membership : List (String × List String)) (nodeId : String) :
    Option (List String) :=
  (membership.find? fun entry => entry.1 = nodeId).map Prod.snd

/-! ## The algorithm is a component search -/

def SccState.ofSearch (s : ComponentSearch.State String) : SccState :=
  ⟨s.index, s.low, s.stack, fun id => id ∈ s.stack,
    s.emitted.reverse.flatMap fun members => members.map fun id => (id, members), s.next⟩

namespace SccState

theorem ofSearch_empty : ofSearch ComponentSearch.State.empty = empty := by
  simp [ofSearch, empty, ComponentSearch.State.empty]

theorem ofSearch_enter (s : ComponentSearch.State String) (nodeId : String) :
    (ofSearch s).enter nodeId = ofSearch (s.enter nodeId) := by
  simp only [ofSearch, enter, ComponentSearch.State.enter, SccState.mk.injEq, true_and, and_true]
  funext id
  by_cases h : id = nodeId <;> simp [h]

end SccState

theorem popUntil_append {nodeId : String} {above rest : List String} (h : nodeId ∉ above) :
    popUntil nodeId (above ++ nodeId :: rest) = (above ++ [nodeId], rest) := by
  induction above with
  | nil => simp [popUntil]
  | cons member above ih =>
    obtain ⟨hne, h⟩ := List.ne_and_not_mem_of_not_mem_cons h
    simp [popUntil, ih h, hne.symm]

/-- Popping the component is emitting it. -/
theorem SccState.ofSearch_popComponent {s : ComponentSearch.State String} {nodeId : String}
    {above rest : List String} (he : s.stack = above ++ nodeId :: rest) (hd : s.stack.Nodup) :
    (ofSearch s).popComponent nodeId =
      ofSearch { s with stack := rest, emitted := (above ++ [nodeId]) :: s.emitted } := by
  rw [he] at hd
  have hn : nodeId ∉ above := fun h =>
    (List.nodup_append.mp hd).2.2 nodeId h nodeId List.mem_cons_self rfl
  have hp : popUntil nodeId (ofSearch s).stack = (above ++ [nodeId], rest) := by
    change popUntil nodeId s.stack = _
    rw [he, popUntil_append hn]
  simp only [popComponent, hp]
  simp only [ofSearch, SccState.mk.injEq, true_and, and_true, he, List.reverse_cons,
    List.flatMap_append, List.flatMap_singleton]
  funext id
  have hdis := (List.nodup_append.mp hd).2.2
  have hnr := (List.nodup_cons.mp (List.nodup_append.mp hd).2.1).1
  by_cases hid : id ∈ above ++ [nodeId]
  · have hir : id ∉ rest := by
      rcases List.mem_append.mp hid with hid | hid
      · exact fun hr => hdis id hid id (List.mem_cons_of_mem _ hr) rfl
      · rwa [List.mem_singleton.mp hid]
    simp [hid, hir]
  · simp only [List.mem_append, List.mem_singleton, not_or] at hid
    simp [hid]

section Fuel

variable {edges : List GraphEdge} {ids : Finset String}

/-- Following the targets of a node, given that the calls on the targets are searches. -/
theorem follow_run {fuel : ℕ}
    (hcall : ∀ {gray s nodeId}, ComponentSearch.Inv (targets edges) gray s →
      ComponentSearch.Pre (targets edges) gray s (.visit nodeId) → nodeId ∈ ids →
      room ids s ≤ fuel → ∃ t, ComponentSearch.Run (targets edges) s (.visit nodeId) t ∧
        connect edges fuel nodeId (.ofSearch s) = .ofSearch t)
    {gray : String → Prop} {nodeId : String} {cs : List String} (hids : ∀ c ∈ cs, c ∈ ids) :
    ∀ {s : ComponentSearch.State String}, ComponentSearch.Inv (targets edges) gray s →
      ComponentSearch.Pre (targets edges) gray s (.follow nodeId cs) → room ids s ≤ fuel →
      ∃ t, ComponentSearch.Run (targets edges) s (.follow nodeId cs) t ∧
        cs.foldl (followTarget (connect edges fuel) nodeId) (.ofSearch s) = .ofSearch t := by
  induction cs with
  | nil => exact fun _ _ _ => ⟨_, .done _ _, rfl⟩
  | cons c cs ih =>
    intro s hs hp hroom
    obtain ⟨hv, htop, hcs⟩ := hp
    have hids' := fun d hd => hids d (List.mem_cons_of_mem _ hd)
    rw [List.foldl_cons]
    cases hi : s.index c with
    | none =>
      have hpc : ComponentSearch.Pre (targets edges) gray s (.visit c) :=
        ⟨hi, fun g hg => (hs.up g (hs.gray_stack g hg) nodeId (hs.gray_stack _ hv)
          (htop g hg)).trans (Reach.edge (hcs c List.mem_cons_self))⟩
      obtain ⟨t, hr, he⟩ := hcall hs hpc (hids c List.mem_cons_self) hroom
      have hone := ComponentSearch.Run.tree (v := nodeId) hi hr (.done _ _)
      obtain ⟨hl, hg, -⟩ := hone.spec hs ⟨hv, htop, by simpa using hcs c List.mem_cons_self⟩
      obtain ⟨u, hu, heu⟩ := ih hids' hl (.rest hs hg ⟨hv, htop, hcs⟩)
        ((room_le_of_grow hg).trans hroom)
      refine ⟨u, .tree hi hr hu, ?_⟩
      rw [← heu, followTarget, show (SccState.ofSearch s).indexById c = none from hi]
      simp only [he]
      rfl
    | some index =>
      by_cases hc : c ∈ s.stack
      · have hone : ComponentSearch.Run (targets edges) s (.follow nodeId [c]) _ :=
          .seen hi hc (.inl rfl) (.done _ _)
        obtain ⟨hl, hg, -⟩ := hone.spec hs ⟨hv, htop, by simpa using hcs c List.mem_cons_self⟩
        obtain ⟨u, hu, heu⟩ := ih hids' hl (.rest hs hg ⟨hv, htop, hcs⟩)
          ((room_le_of_grow hg).trans hroom)
        refine ⟨u, .seen hi hc (.inl rfl) hu, ?_⟩
        rw [← heu, followTarget, show (SccState.ofSearch s).indexById c = some index from hi]
        simp only [SccState.ofSearch, hc, decide_true, if_true]
        rfl
      · obtain ⟨u, hu, heu⟩ := ih hids' hs (.rest hs (.refl s) ⟨hv, htop, hcs⟩) hroom
        refine ⟨u, .past hi hc hu, ?_⟩
        rw [← heu, followTarget, show (SccState.ofSearch s).indexById c = some index from hi]
        simp [SccState.ofSearch, hc]

/-- **The recursion is a component search**: with a turn left for every id not entered yet,
`connect` does not run out of fuel. -/
theorem connect_run (hids : ∀ id, ∀ c ∈ targets edges id, c ∈ ids) :
    ∀ {fuel : ℕ} {gray : String → Prop} {s : ComponentSearch.State String} {nodeId : String},
      ComponentSearch.Inv (targets edges) gray s →
      ComponentSearch.Pre (targets edges) gray s (.visit nodeId) → nodeId ∈ ids →
      room ids s ≤ fuel → ∃ t, ComponentSearch.Run (targets edges) s (.visit nodeId) t ∧
        connect edges fuel nodeId (.ofSearch s) = .ofSearch t := by
  intro fuel
  induction fuel with
  | zero =>
    intro gray s nodeId _ hp hid hroom
    have := room_enter_lt hid hp.1
    omega
  | succ fuel ih =>
    intro gray s nodeId hs hp hid hroom
    obtain ⟨hf, hr⟩ := hp
    have henter := hs.enter hf hr
    have hlt := room_enter_lt hid hf
    obtain ⟨t, hrun, he⟩ := follow_run ih (hids nodeId) henter (.enter hs hf) (by omega)
    obtain ⟨hit, hgt, hpt⟩ := hrun.spec henter (.enter hs hf)
    have hl := ComponentSearch.Leaving.of_follow hs hf hr hit hgt hpt
    have hidx : t.index nodeId = some s.next := hgt.index _ _ (s.enter_index_self nodeId)
    rw [connect, SccState.ofSearch_enter, he]
    by_cases hk : t.low nodeId = s.next
    · obtain ⟨above, hst, -⟩ := hl.exists_stack
      refine ⟨_, .emit hrun hk hst, ?_⟩
      rw [if_pos (by simp [SccState.ofSearch, hidx, hk]),
        SccState.ofSearch_popComponent hst hit.stack_nodup]
    · refine ⟨t, .keep hrun hk, ?_⟩
      rw [if_neg (by simp [SccState.ofSearch, hidx, hk])]

end Fuel

/-- The node ids the search over `edges` may meet. -/
def searchIds (graph : WorkflowGraph) (edges : List GraphEdge) : Finset String :=
  (graph.nodes.map GraphNode.id ++ edges.map GraphEdge.to).toFinset

theorem mem_targets {edges : List GraphEdge} {a b : String} :
    b ∈ targets edges a ↔ ∃ edge ∈ edges, edge.from = a ∧ edge.to = b := by
  simp [targets, and_assoc]

/-- The whole loop over the nodes is a component search from every node. -/
theorem computeSccMembership_run (graph : WorkflowGraph) (edges : List GraphEdge) :
    ∃ t, ComponentSearch.RunAll (targets edges) .empty (graph.nodes.map GraphNode.id) t ∧
      computeSccMembership graph edges = (SccState.ofSearch t).membership := by
  set ids := searchIds graph edges with hids
  have hcard : ids.card ≤ graph.nodes.length + edges.length + 1 := by
    refine (List.toFinset_card_le _).trans ?_
    simp
  have hsub : ∀ id, ∀ c ∈ targets edges id, c ∈ ids := by
    intro id c hc
    obtain ⟨edge, he, -, rfl⟩ := mem_targets.mp hc
    exact List.mem_toFinset.mpr (List.mem_append_right _ (List.mem_map_of_mem he))
  suffices h : ∀ (nodes : List GraphNode), (∀ node ∈ nodes, node ∈ graph.nodes) →
      ∀ s, ComponentSearch.Inv (targets edges) (fun _ => False) s →
      ∃ t, ComponentSearch.RunAll (targets edges) s (nodes.map GraphNode.id) t ∧
        nodes.foldl
          (fun st node =>
            if st.indexById node.id = none then
              connect edges (graph.nodes.length + edges.length + 1) node.id st
            else st)
          (.ofSearch s) = .ofSearch t by
    obtain ⟨t, hr, he⟩ := h graph.nodes (fun _ h => h) .empty .empty
    refine ⟨t, hr, ?_⟩
    rw [computeSccMembership, ← SccState.ofSearch_empty, he]
  intro nodes
  induction nodes with
  | nil => exact fun _ s _ => ⟨s, .nil s, rfl⟩
  | cons node nodes ih =>
    intro hnodes s hs
    have ih := ih fun n hn => hnodes n (List.mem_cons_of_mem _ hn)
    have hid : node.id ∈ ids := List.mem_toFinset.mpr
      (List.mem_append_left _ (List.mem_map_of_mem (hnodes node List.mem_cons_self)))
    rw [List.foldl_cons, List.map_cons]
    by_cases hi : s.index node.id = none
    · obtain ⟨t, hr, he⟩ := connect_run hsub hs ⟨hi, fun _ h => h.elim⟩ hid
        ((Finset.card_filter_le _ _).trans hcard)
      obtain ⟨hit, -, -⟩ := hr.spec hs ⟨hi, fun _ h => h.elim⟩
      obtain ⟨u, hu, heu⟩ := ih t hit
      refine ⟨u, .enter hi hr hu, ?_⟩
      rw [← heu, if_pos (show (SccState.ofSearch s).indexById node.id = none from hi), he]
    · obtain ⟨u, hu, heu⟩ := ih s hs
      refine ⟨u, .skip hi hu, ?_⟩
      rw [← heu, if_neg (show (SccState.ofSearch s).indexById node.id ≠ none from hi)]

/-! ## What the membership map says -/

theorem membersOf_ofSearch {edges : List GraphEdge} {s : ComponentSearch.State String}
    {gray : String → Prop} (hs : ComponentSearch.Inv (targets edges) gray s) {nodeId : String}
    {members : List String} :
    membersOf (SccState.ofSearch s).membership nodeId = some members ↔
      members ∈ s.emitted ∧ nodeId ∈ members := by
  have hmem : ∀ entry, entry ∈ (SccState.ofSearch s).membership ↔
      entry.2 ∈ s.emitted ∧ entry.1 ∈ entry.2 := by
    rintro ⟨id, ms⟩
    simp only [SccState.ofSearch, List.mem_flatMap, List.mem_reverse, List.mem_map, Prod.mk.injEq]
    constructor
    · rintro ⟨ms', hms, id', hid, rfl, rfl⟩
      exact ⟨hms, hid⟩
    · rintro ⟨hms, hid⟩
      exact ⟨ms, hms, id, hid, rfl, rfl⟩
  -- two emitted components with a common node are one
  have huniq : ∀ c ∈ s.emitted, ∀ d ∈ s.emitted, nodeId ∈ c → nodeId ∈ d → c = d := by
    intro c hc d hd hnc hnd
    have : Std.Symm (List.Disjoint (α := String)) := ⟨fun _ _ h => h.symm⟩
    by_contra hne
    exact hs.emitted_disjoint.forall hc hd hne hnc hnd
  unfold membersOf
  constructor
  · intro h
    obtain ⟨entry, hfind, rfl⟩ := Option.map_eq_some_iff.mp h
    have hid : entry.1 = nodeId := by simpa using List.find?_some hfind
    exact hid ▸ (hmem entry).mp (List.mem_of_find?_eq_some hfind)
  · rintro ⟨hms, hid⟩
    cases hfind : (SccState.ofSearch s).membership.find? fun entry => entry.1 = nodeId with
    | none =>
      have := List.find?_eq_none.mp hfind (nodeId, members) ((hmem _).mpr ⟨hms, hid⟩)
      simp at this
    | some entry =>
      have he : entry.1 = nodeId := by simpa using List.find?_some hfind
      have := (hmem entry).mp (List.mem_of_find?_eq_some hfind)
      rw [Option.map_some, huniq entry.2 this.1 members hms (he ▸ this.2) hid]

section Membership

variable {graph : WorkflowGraph} {edges : List GraphEdge} {nodeId : String} {members : List String}

/-- **The members** recorded for a node are exactly the nodes it is mutually reachable with. -/
theorem mem_members_iff (h : membersOf (computeSccMembership graph edges) nodeId = some members)
    {x : String} : x ∈ members ↔ Mutual (targets edges) nodeId x := by
  obtain ⟨t, hr, he⟩ := computeSccMembership_run graph edges
  obtain ⟨ht, -, -⟩ := hr.spec .empty
  rw [he, membersOf_ofSearch ht] at h
  exact ht.emitted_class members h.1 nodeId h.2 x

theorem exists_members (edges : List GraphEdge) (h : ∃ node ∈ graph.nodes, node.id = nodeId) :
    ∃ members, membersOf (computeSccMembership graph edges) nodeId = some members := by
  obtain ⟨t, hr, he⟩ := computeSccMembership_run graph edges
  obtain ⟨ht, -, hv⟩ := hr.spec .empty
  obtain ⟨node, hn, rfl⟩ := h
  obtain ⟨members, hms⟩ := (ht.mem_emitted_iff node.id).mpr (hv _ (List.mem_map_of_mem hn))
  exact ⟨members, by rw [he, membersOf_ofSearch ht]; exact hms⟩

/-- The recorded members are listed once. -/
theorem nodup_members (h : membersOf (computeSccMembership graph edges) nodeId = some members) :
    members.Nodup := by
  obtain ⟨t, hr, he⟩ := computeSccMembership_run graph edges
  obtain ⟨ht, -, -⟩ := hr.spec .empty
  rw [he, membersOf_ofSearch ht] at h
  exact ht.emitted_nodup members h.1

theorem mem_membership_values :
    members ∈ (computeSccMembership graph edges).map Prod.snd ↔
      ∃ nodeId, membersOf (computeSccMembership graph edges) nodeId = some members := by
  obtain ⟨t, hr, he⟩ := computeSccMembership_run graph edges
  obtain ⟨ht, -, -⟩ := hr.spec .empty
  simp only [he, membersOf_ofSearch ht]
  constructor
  · intro h
    obtain ⟨⟨id, ms⟩, hmem, rfl⟩ := List.mem_map.mp h
    simp only [SccState.ofSearch, List.mem_flatMap, List.mem_reverse, List.mem_map] at hmem
    obtain ⟨ms', hms, id', hid, he⟩ := hmem
    obtain ⟨rfl, rfl⟩ := Prod.mk.inj he
    exact ⟨id', hms, hid⟩
  · rintro ⟨id, hms, hid⟩
    refine List.mem_map.mpr ⟨(id, members), ?_, rfl⟩
    simp only [SccState.ofSearch, List.mem_flatMap, List.mem_reverse, List.mem_map]
    exact ⟨members, hms, id, hid, rfl⟩

end Membership

end N8n.Engine
