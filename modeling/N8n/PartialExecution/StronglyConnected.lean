import N8n.Foundations.LowLinks
import N8n.PartialExecution.DirectedGraph
import Mathlib.Data.List.TakeWhile

/-!
# When the components are the strongly connected components

`getStronglyConnectedComponents` is a component search that takes over low values, except that it
pops a component only as far as the low values on the stack equal the id of its first node. As long
as every node of a component has that value the two agree; where one has not, the first node of its
component stays on the stack for good.

## Main definitions

* `IsPartition`: the result is the strongly connected components
* `DrainsFirst`: every node of a component drains to its first node
* `Stuck`: a node that is never popped

## Main results

* `followNode_spec`: following a node is a search, or leaves a node stuck
* `isPartition_iff_drainsFirst`: when the result is right
-/

namespace N8n.PartialExecution

open ComponentSearch.State ComponentSearch

open ComponentSearch (Reach Mutual Inv Pre Post Run LowInv Drains Traversal traverseFrom Leaving Grow)

namespace DirectedGraph

/-! ## Statement -/

/-- The sets are disjoint, cover the nodes of the graph, and two nodes are in one set if and only if
each is reachable from the other. -/
structure IsPartition (graph : DirectedGraph) (components : List (List String)) : Prop where
  disjoint : components.Pairwise List.Disjoint
  cover : ∀ node, (∃ component ∈ components, node ∈ component) ↔ node ∈ graph.nodes
  classes : ∀ a ∈ graph.nodes, ∀ b ∈ graph.nodes,
    (∃ component ∈ components, a ∈ component ∧ b ∈ component) ↔ Mutual graph.directChildren a b

/-- The plain depth-first traversal of a graph. -/
def traversal (graph : DirectedGraph) : Traversal String :=
  graph.nodes.foldl (traverseFrom graph.directChildren (graph.nodes.length + 1)) ⟨[], []⟩

/-- The node is entered before the other nodes it is mutually reachable with. -/
def First (succ : String → List String) (order : List String) (node : String) : Prop :=
  ∃ before after, order = before ++ node :: after ∧ ∀ other ∈ before, ¬ Mutual succ node other

/-- Every node of a component has a path to the first node of its component whose connections the
depth-first traversal followed last first. -/
def DrainsFirst (graph : DirectedGraph) : Prop :=
  ∀ first, First graph.directChildren graph.traversal.order first →
    ∀ node, Mutual graph.directChildren first node → Drains graph.traversal.log node first

/-! ## The state as the state of a search -/

namespace ComponentState

def ofSearch (s : ComponentSearch.State String) : ComponentState :=
  ⟨s.next, fun node => (s.index node).isSome, s.index, s.low, s.stack, s.emitted.reverse⟩

theorem ofSearch_empty : ofSearch ComponentSearch.State.empty = initial := rfl

theorem ofSearch_enter (s : ComponentSearch.State String) (node : String) :
    (ofSearch s).visit node = ofSearch (s.enter node) := by
  simp only [ofSearch, visit, ComponentSearch.State.enter, ComponentState.mk.injEq, true_and,
    and_true]
  funext other
  by_cases h : other = node <;> simp [h]

theorem ofSearch_takeLow {s : ComponentSearch.State String} {node child : String}
    (h : child ∈ s.stack) :
    (ofSearch s).takeLow node child = ofSearch (s.lower node (s.low child)) := by
  unfold takeLow ofSearch lower
  rw [if_pos h, min_comm]

theorem ofSearch_takeLow_of_not_mem {s : ComponentSearch.State String} {node child : String}
    (h : child ∉ s.stack) : (ofSearch s).takeLow node child = ofSearch s := if_neg h

end ComponentState

/-! ## A node that is never popped -/

/-- The node is on the stack with its own id as its low value, and no other node has that id. -/
structure Stuck (node : String) (id : ℕ) (st : ComponentState) : Prop where
  visited : st.visited node = true
  low : st.lowLinkValues node = id
  stack : node ∈ st.stack
  not_emitted : ∀ component ∈ st.stronglyConnectedComponents, node ∉ component
  id_lt : id < st.id
  unique : ∀ other, st.ids other = some id → other = node

section Stuck

variable {node other : String} {id : ℕ} {st : ComponentState} {graph : DirectedGraph}

theorem Stuck.visit (h : Stuck node id st) (hne : other ≠ node) :
    Stuck node id (st.visit other) where
  visited := by simp [ComponentState.visit, hne.symm, h.visited]
  low := by simp [ComponentState.visit, hne.symm, h.low]
  stack := List.mem_cons_of_mem _ h.stack
  not_emitted := h.not_emitted
  id_lt := h.id_lt.trans (Nat.lt_succ_self _)
  unique w hw := by
    by_cases hwo : w = other
    · subst hwo
      have : st.id = id := by simpa [ComponentState.visit] using hw
      exact absurd h.id_lt (by omega)
    · exact h.unique w (by simpa [ComponentState.visit, hwo] using hw)

theorem Stuck.takeLow (h : Stuck node id st) (hne : other ≠ node) (child : String) :
    Stuck node id (st.takeLow other child) := by
  unfold ComponentState.takeLow
  split_ifs
  · exact { h with low := by simp [hne.symm, h.low] }
  · exact h

/-- A component of another node is popped no further than to the stuck node. -/
theorem Stuck.leave (h : Stuck node id st) (hne : other ≠ node) :
    Stuck node id (st.leave other) := by
  unfold ComponentState.leave
  split_ifs with hids
  · have hlow : st.lowLinkValues other ≠ id := fun he => hne (h.unique other (he ▸ hids))
    have hpop : ¬ st.lowLinkValues node = st.lowLinkValues other := fun he => hlow (he ▸ h.low)
    unfold ComponentState.popComponent
    refine ⟨h.visited, h.low, ?_, fun component hc => ?_, h.id_lt, h.unique⟩
    · have hmem := h.stack
      rw [← @List.takeWhile_append_dropWhile _
        (fun next => decide (st.lowLinkValues next = st.lowLinkValues other)) st.stack] at hmem
      refine (List.mem_append.mp hmem).resolve_left fun hin => ?_
      exact hpop (by simpa using List.mem_takeWhile_imp hin)
    · dsimp only at hc
      split_ifs at hc
      · exact h.not_emitted component hc
      · rcases List.mem_append.mp hc with hc | hc
        · exact h.not_emitted component hc
        · rw [List.mem_singleton.mp hc]
          exact fun hin => hpop (by simpa using List.mem_takeWhile_imp hin)
  · exact h

theorem Stuck.foldl_followChild {follow : ComponentState → String → ComponentState}
    (hfollow : ∀ st child, Stuck node id st → Stuck node id (follow st child))
    (h : Stuck node id st) (hne : other ≠ node) (children : List String) :
    Stuck node id (children.foldl (followChild follow other) st) := by
  induction children generalizing st with
  | nil => exact h
  | cons child children ih => exact ih ((hfollow st child h).takeLow hne child)

/-- **A stuck node stays stuck.** -/
theorem Stuck.followNode (h : Stuck node id st) (fuel : ℕ) (other : String) :
    Stuck node id (graph.followNode fuel st other) := by
  induction fuel generalizing st other with
  | zero => exact h
  | succ fuel ih =>
    unfold DirectedGraph.followNode
    split_ifs with hvisited
    · exact h
    · have hne : other ≠ node := by
        rintro rfl
        exact hvisited h.visited
      exact ((h.visit hne).foldl_followChild (fun st child h => ih h child) hne _).leave hne

end Stuck

/-! ## Following a node -/

structure Numbered (s : ComponentSearch.State String) (d : Traversal String) : Prop where
  next : s.next = d.order.length
  index : ∀ node i, s.index node = some i ↔ d.order[i]? = some node

def Drained (s : ComponentSearch.State String) (log : List (String × String)) : Prop :=
  ∀ component ∈ s.emitted, ∃ first ∈ component,
    ∀ node ∈ component, s.num first ≤ s.num node ∧ Drains log node first

/-- The search went wrong: the first node of a component is stuck, and a node of its component does
not drain to it. `gray` are the nodes that are still being followed. -/
def Wrong (graph : DirectedGraph) (gray : String → Prop) (st : ComponentState)
    (d : Traversal String) : Prop :=
  ∃ first ∈ graph.nodes, ∃ id node, Stuck first id st ∧ ¬ gray first ∧ ¬ gray node ∧
    node ∈ d.order ∧ First graph.directChildren d.order first ∧
    Mutual graph.directChildren first node ∧ ¬ Drains d.log node first

structure Right (graph : DirectedGraph) (s : ComponentSearch.State String)
    (d : Traversal String) : Prop where
  order_mem : ∀ node ∈ d.order, node ∈ graph.nodes
  low : LowInv graph.directChildren s d.log
  numbered : Numbered s d
  drained : Drained s d.log

section Right

variable {graph : DirectedGraph} {gray gray' : String → Prop} {s t : ComponentSearch.State String}
  {d d' : Traversal String} {node child : String} {st st' : ComponentState}
  {succ : String → List String}

theorem Numbered.mem_order (h : Numbered s d) : node ∈ d.order ↔ s.Visited node := by
  unfold ComponentSearch.State.Visited
  rw [Option.ne_none_iff_exists', List.mem_iff_getElem?]
  simp only [h.index]

theorem Numbered.enter (h : Numbered s d) (hv : s.index node = none) :
    Numbered (s.enter node) ⟨d.order ++ [node], d.log⟩ where
  next := by simp [h.next]
  index other i := by
    by_cases hne : other = node
    · subst hne
      rw [s.enter_index_self, h.next]
      have hnot : d.order[i]? ≠ some other := fun he => by simp [(h.index other i).mpr he] at hv
      constructor
      · intro he
        cases he
        simp
      · intro he
        rcases lt_or_ge i d.order.length with hi | hi
        · rw [List.getElem?_append_left hi] at he
          exact absurd he hnot
        · rw [List.getElem?_append_right hi] at he
          have hlt := (List.getElem?_eq_some_iff.mp he).1
          simp only [List.length_singleton] at hlt
          congr 1
          omega
    · have hold : (s.enter node).index other = s.index other := by
        simp [ComponentSearch.State.enter, hne]
      rw [hold, h.index]
      rcases lt_or_ge i d.order.length with hi | hi
      · rw [List.getElem?_append_left hi]
      · rw [List.getElem?_append_right hi, List.getElem?_eq_none hi]
        simp only [reduceCtorEq, false_iff]
        intro he
        exact hne (List.mem_singleton.mp (List.mem_of_getElem? he))

theorem Drained.mono {log : List (String × String)} (h : Drained s log)
    (new : List (String × String)) : Drained s (new ++ log) := by
  intro component hc
  obtain ⟨first, hf, hall⟩ := h component hc
  exact ⟨first, hf, fun node hn => ⟨(hall node hn).1, (hall node hn).2.append⟩⟩

theorem Right.enter (h : Right graph s d) (hs : Inv graph.directChildren gray s)
    (hv : s.index node = none) (hnode : node ∈ graph.nodes) :
    Right graph (s.enter node) ⟨d.order ++ [node], d.log⟩ where
  order_mem other ho := by
    rcases List.mem_append.mp ho with ho | ho
    · exact h.order_mem other ho
    · exact List.mem_singleton.mp ho ▸ hnode
  low := h.low.enter hs hv
  numbered := h.numbered.enter hv
  drained component hc := by
    obtain ⟨first, hf, hall⟩ := h.drained component hc
    have hne : ∀ other ∈ component, other ≠ node := by
      rintro other ho rfl
      exact ((hs.emitted_iff other).mp ⟨component, hc, ho⟩).1 hv
    refine ⟨first, hf, fun other ho => ⟨?_, (hall other ho).2⟩⟩
    rw [s.enter_num_of_ne (hne first hf), s.enter_num_of_ne (hne other ho)]
    exact (hall other ho).1

/-- A node entered first in its component is its first. -/
theorem first_of_numbered (h : Numbered s d) {first : String} {i : ℕ}
    (hi : s.index first = some i)
    (hmin : ∀ other, Mutual succ first other → s.Visited other → i ≤ s.num other) :
    First succ d.order first := by
  have hget := (h.index first i).mp hi
  obtain ⟨hlt, he⟩ := List.getElem?_eq_some_iff.mp hget
  refine ⟨d.order.take i, d.order.drop (i + 1), ?_, fun other ho hm => ?_⟩
  · rw [← he, List.getElem_cons_drop, List.take_append_drop]
  · obtain ⟨j, hj⟩ := List.mem_iff_getElem?.mp ho
    rw [List.getElem?_take] at hj
    split_ifs at hj with hji
    have hidx := (h.index other j).mpr hj
    have := hmin other hm (by simp [ComponentSearch.State.Visited, hidx])
    simp only [num, hidx, Option.getD_some] at this
    omega

theorem First.append {order new : List String} (h : First succ order node) :
    First succ (order ++ new) node := by
  obtain ⟨before, after, rfl, hb⟩ := h
  exact ⟨before, after ++ new, by simp, hb⟩

/-- What went wrong stays wrong while other nodes are followed. -/
theorem Wrong.continues (h : Wrong graph gray st d) (hst : ∀ first id, ¬ gray first →
    Stuck first id st → Stuck first id st') (hd : d.Continues gray d') :
    Wrong graph gray st' d' := by
  obtain ⟨first, hin, id, node, hstuck, hf, hn, hmem, hfirst, hmutual, hdrains⟩ := h
  refine ⟨first, hin, id, node, hst first id hf hstuck, hf, hn, hd.mem_order hmem, ?_, hmutual,
    hd.not_drains hmem hn hdrains⟩
  obtain ⟨new, he⟩ := hd.order
  exact he ▸ hfirst.append

theorem Wrong.of_gray (h : Wrong graph gray st d) (hsub : ∀ node, gray' node → gray node) :
    Wrong graph gray' st d := by
  obtain ⟨first, hin, id, node, hstuck, hf, hn, hrest⟩ := h
  exact ⟨first, hin, id, node, hstuck, fun hg => hf (hsub _ hg), fun hg => hn (hsub _ hg), hrest⟩

/-- A child on the stack hands over its low value. -/
theorem Right.lower (h : Right graph s d) (hs : Inv graph.directChildren gray s)
    (hv : node ∈ s.stack) (hc : child ∈ s.stack) (hvc : child ∈ graph.directChildren node) :
    Right graph (s.lower node (s.low child)) ⟨d.order, (node, child) :: d.log⟩ :=
  ⟨h.order_mem, h.low.lower hs hv hc hvc, ⟨h.numbered.next, h.numbered.index⟩,
    h.drained.mono [(node, child)]⟩

/-- A child that is emitted is passed over. -/
theorem Right.pass (h : Right graph s d) (hv : s.Visited node) (hc : s.Visited child)
    (hcs : child ∉ s.stack) (hvc : child ∈ graph.directChildren node) :
    Right graph s ⟨d.order, (node, child) :: d.log⟩ :=
  ⟨h.order_mem, h.low.pass hv hc hcs hvc, ⟨h.numbered.next, h.numbered.index⟩,
    h.drained.mono [(node, child)]⟩

/-- What went wrong below a node stays wrong while the rest of its children are followed. -/
theorem Wrong.foldl (h : Wrong graph gray st d) (hg : gray node) (fuel : ℕ)
    (children : List String) :
    Wrong graph gray (children.foldl (followChild (followNode graph fuel) node) st)
      (children.foldl (Traversal.follow (traverseFrom graph.directChildren fuel) node) d) := by
  refine h.continues (fun first id hf hstuck => ?_) ?_
  · refine hstuck.foldl_followChild (fun st child h => h.followNode fuel child) ?_ children
    rintro rfl
    exact hf hg
  · refine (foldl_follow_grow (fun d c => ?_) node children d).mono ?_
    · exact traverseFrom_grow _ fuel d c
    · rintro other rfl
      exact hg

theorem Wrong.followChild (h : Wrong graph gray st d) (hg : gray node) (child : String) :
    Wrong graph gray (st.takeLow node child) ⟨d.order, (node, child) :: d.log⟩ := by
  refine h.continues (fun first id hf hstuck => hstuck.takeLow ?_ child) ?_
  · rintro rfl
    exact hf hg
  · exact ⟨⟨[], by simp⟩, [(node, child)], rfl, by simpa using .inl hg⟩

theorem Wrong.foldl_nodes (h : Wrong graph gray st d) (fuel : ℕ) (nodes : List String) :
    Wrong graph gray (nodes.foldl (followNode graph fuel) st)
      (nodes.foldl (traverseFrom graph.directChildren fuel) d) := by
  induction nodes generalizing st d with
  | nil => exact h
  | cons node nodes ih =>
    refine ih (h.continues (fun _ _ _ hstuck => hstuck.followNode fuel node) ?_)
    exact (traverseFrom_grow _ fuel d node).mono fun _ h => h.elim

end Right

/-! ### The pop -/

section Pop

variable {graph : DirectedGraph} {gray : String → Prop} {s t : ComponentSearch.State String}
  {d : Traversal String} {node : String} {above : List String}

/-- What is below the first node of a component has a smaller low value. -/
theorem low_lt_next (hs : Inv graph.directChildren gray s)
    (hl : Leaving graph.directChildren gray s t node) {other : String} (ho : other ∈ s.stack) :
    t.low other < s.next := by
  have hvis := hs.stack_visited other ho
  rw [hl.low other hvis]
  exact (hs.low_le other ho).trans_lt (hs.num_lt other hvis)

/-- The pop takes the component off the stack if every node of it has the low value of the first
node. -/
theorem popComponent_of_forall (hs : Inv graph.directChildren gray s)
    (hl : Leaving graph.directChildren gray s t node) (hk : t.low node = s.next)
    (he : t.stack = above ++ node :: s.stack) (hall : ∀ other ∈ above, t.low other = s.next) :
    (ComponentState.ofSearch t).popComponent s.next = ComponentState.ofSearch
      { t with stack := s.stack, emitted := (above ++ [node]) :: t.emitted } := by
  have hin : ∀ other ∈ above ++ [node], decide (t.low other = s.next) = true := by
    intro other ho
    rcases List.mem_append.mp ho with ho | ho
    · exact decide_eq_true (hall other ho)
    · exact decide_eq_true (List.mem_singleton.mp ho ▸ hk)
  have hstack : t.stack = (above ++ [node]) ++ s.stack := by simp [he]
  have hout : s.stack.takeWhile (fun other => decide (t.low other = s.next)) = [] ∧
      s.stack.dropWhile (fun other => decide (t.low other = s.next)) = s.stack := by
    cases hst : s.stack with
    | nil => simp
    | cons top rest =>
      have hlt : t.low top < s.next := low_lt_next hs hl (by simp [hst])
      have hne : t.low top ≠ s.next := hlt.ne
      simp [hne]
  unfold ComponentState.popComponent ComponentState.ofSearch
  simp only [hstack, List.takeWhile_append_of_pos hin, List.dropWhile_append_of_pos hin, hout]
  simp

/-- A node of the component that does not drain to the first node leaves the first node stuck. -/
theorem stuck_popComponent
    (hl : Leaving graph.directChildren gray s t node) (hk : t.low node = s.next)
    (he : t.stack = above ++ node :: s.stack) {other : String} (ho : other ∈ above)
    (hlow : t.low other ≠ s.next) :
    Stuck node s.next ((ComponentState.ofSearch t).popComponent s.next) := by
  have hnd := hl.inv.stack_nodup
  have hidx : t.index node = some s.next :=
    hl.grow.index node s.next (s.enter_index_self node)
  -- the pop stops above `node`
  have hnot : node ∉ t.stack.takeWhile fun next => decide (t.low next = s.next) := by
    intro hin
    obtain ⟨left, right, rfl⟩ := List.append_of_mem ho
    rw [he, List.append_assoc, List.takeWhile_append] at hin
    have hdis := (List.nodup_append.mp (he ▸ hnd)).2.2
    split_ifs at hin with hleft
    · rw [List.cons_append, List.takeWhile_cons_of_neg (by simpa using hlow)] at hin
      refine hdis node (List.mem_append_left _ ?_) node List.mem_cons_self rfl
      simpa using hin
    · refine hdis node (List.mem_append_left _ ?_) node List.mem_cons_self rfl
      exact (List.takeWhile_sublist _).subset hin
  refine ⟨?_, hk, ?_, fun component hc => ?_, ?_, fun w hw => ?_⟩
  · simp [ComponentState.popComponent, ComponentState.ofSearch, hidx]
  · have hmem := hl.mem_stack
    rw [← @List.takeWhile_append_dropWhile _ (fun next => decide (t.low next = s.next)) t.stack]
      at hmem
    exact (List.mem_append.mp hmem).resolve_left hnot
  · have hold : ∀ component ∈ t.emitted, node ∉ component := fun component hc hin =>
      ((hl.inv.emitted_iff node).mp ⟨component, hc, hin⟩).2 hl.mem_stack
    unfold ComponentState.popComponent at hc
    dsimp only [ComponentState.ofSearch] at hc
    split_ifs at hc
    · exact hold component (List.mem_reverse.mp hc)
    · rcases List.mem_append.mp hc with hc | hc
      · exact hold component (List.mem_reverse.mp hc)
      · exact List.mem_singleton.mp hc ▸ hnot
  · exact (Nat.lt_succ_self _).trans_le (hl.grow.next)
  · have hw' : t.index w = some s.next := hw
    refine hl.inv.num_inj w node ?_ ?_ ?_
    · simp [ComponentSearch.State.Visited, hw']
    · simp [ComponentSearch.State.Visited, hidx]
    · simp [num, hw', hidx]

/-- **Leaving a node**: the search keeps it, emits its component, or leaves it stuck. -/
theorem leave_spec (hs : Inv graph.directChildren gray s)
    (hl : Leaving graph.directChildren gray s t node)
    (hrun : Run graph.directChildren (s.enter node)
      (.follow node (graph.directChildren node)) t)
    (hr : Right graph t d) (hnode : node ∈ graph.nodes) :
    (∃ u, Run graph.directChildren s (.visit node) u ∧ Right graph u d ∧
        (ComponentState.ofSearch t).leave node = ComponentState.ofSearch u) ∨
      Wrong graph gray ((ComponentState.ofSearch t).leave node) d := by
  have hidx : t.index node = some s.next :=
    hl.grow.index node s.next (s.enter_index_self node)
  have hleave : (ComponentState.ofSearch t).leave node =
      if s.next = t.low node then (ComponentState.ofSearch t).popComponent (t.low node)
      else ComponentState.ofSearch t := by
    simp [ComponentState.leave, ComponentState.ofSearch, hidx]
  by_cases hk : t.low node = s.next
  · rw [hleave, if_pos hk.symm, hk]
    obtain ⟨above, he, -⟩ := hl.exists_stack
    have hclass : ∀ other ∈ above ++ [node], other ∈ t.stack ∧ other ∉ s.stack :=
      fun other ho => (hl.mem_above_iff he).mp ho
    by_cases hall : ∀ other ∈ above, t.low other = s.next
    · left
      refine ⟨_, .emit hrun hk he, ⟨hr.order_mem, hr.low.emit hs hl hk _, ⟨hr.numbered.next,
        hr.numbered.index⟩, ?_⟩, popComponent_of_forall hs hl hk he hall⟩
      refine List.forall_mem_cons.mpr ⟨⟨node, by simp, fun other ho => ?_⟩, hr.drained⟩
      obtain ⟨hot, hos⟩ := hclass other ho
      refine ⟨(hl.num_le_iff hs hot).mpr hos, ?_⟩
      rcases List.mem_append.mp ho with ho | ho
      · exact (hl.low_eq_iff hr.low hs hk hot hos).mp (hall other ho)
      · exact List.mem_singleton.mp ho ▸ .refl _ _
    · right
      push Not at hall
      obtain ⟨other, ho, hlow⟩ := hall
      obtain ⟨hot, hos⟩ := hclass other (List.mem_append_left _ ho)
      refine ⟨node, hnode, s.next, other, stuck_popComponent hl hk he ho hlow, fun hg => ?_,
        fun hg => hos (hs.gray_stack other hg), ?_, ?_, (hl.mutual_iff hs hk).mp ⟨hot, hos⟩,
        fun hd => hlow ((hl.low_eq_iff hr.low hs hk hot hos).mpr hd)⟩
      · exact hs.stack_visited node (hs.gray_stack node hg) hl.fresh
      · exact hr.numbered.mem_order.mpr (hl.inv.stack_visited other hot)
      · refine first_of_numbered hr.numbered hidx fun w hw _ => ?_
        obtain ⟨hwt, hws⟩ := (hl.mutual_iff hs hk).mpr hw
        rw [← hl.num_self]
        exact (hl.num_le_iff hs hwt).mpr hws
  · rw [hleave, if_neg (Ne.symm hk)]
    exact .inl ⟨t, .keep hrun hk, hr, rfl⟩

end Pop

/-! ### The recursion -/

section Recursion

variable {graph : DirectedGraph}

/-- A task was carried out as by a search, or it went wrong. -/
def Follows (graph : DirectedGraph) (gray : String → Prop) (s : ComponentSearch.State String)
    (task : ComponentSearch.Task String) (st : ComponentState) (d : Traversal String) : Prop :=
  (∃ t, Run graph.directChildren s task t ∧ Right graph t d ∧ st = ComponentState.ofSearch t) ∨
    Wrong graph gray st d

/-- A node that is entered already is not followed again. -/
theorem followNode_of_visited {s : ComponentSearch.State String} {d : Traversal String}
    (hr : Right graph s d) {node : String} (hv : s.Visited node) (fuel : ℕ) :
    graph.followNode fuel (.ofSearch s) node = .ofSearch s ∧
      traverseFrom graph.directChildren fuel d node = d := by
  obtain ⟨i, hi⟩ := Option.ne_none_iff_exists'.mp hv
  cases fuel with
  | zero => exact ⟨rfl, rfl⟩
  | succ fuel =>
    refine ⟨if_pos ?_, if_pos (hr.numbered.mem_order.mpr hv)⟩
    simp [ComponentState.ofSearch, hi]

/-- Following the children of a node, given that following a child does what a search does. -/
theorem foldl_follows {fuel : ℕ}
    (hcall : ∀ {gray s d node}, Inv graph.directChildren gray s →
      Pre graph.directChildren gray s (.visit node) → node ∈ graph.nodes →
      room graph.nodes.toFinset s ≤ fuel → Right graph s d →
      Follows graph gray s (.visit node) (graph.followNode fuel (.ofSearch s) node)
        (traverseFrom graph.directChildren fuel d node))
    {gray : String → Prop} {node : String} {children : List String} :
    ∀ {s : ComponentSearch.State String} {d : Traversal String},
      Inv graph.directChildren gray s →
      Pre graph.directChildren gray s (.follow node children) →
      room graph.nodes.toFinset s ≤ fuel → Right graph s d →
      Follows graph gray s (.follow node children)
        (children.foldl (followChild (graph.followNode fuel) node) (.ofSearch s))
        (children.foldl (Traversal.follow (traverseFrom graph.directChildren fuel) node) d) := by
  induction children with
  | nil => exact fun _ _ _ hr => .inl ⟨_, .done _ _, hr, rfl⟩
  | cons child children ih =>
    intro s d hs hp hroom hr
    obtain ⟨hg, htop, hsucc⟩ := hp
    have hvs := hs.gray_stack node hg
    have hvc : child ∈ graph.directChildren node := hsucc child List.mem_cons_self
    have hone : ∀ c ∈ [child], c ∈ graph.directChildren node := by simpa using hvc
    rw [List.foldl_cons, List.foldl_cons, followChild, Traversal.follow]
    cases hi : s.index child with
    | none =>
      have hpc : Pre graph.directChildren gray s (.visit child) :=
        ⟨hi, fun g hg => (hs.up g (hs.gray_stack g hg) node hvs (htop g hg)).trans
          (Reach.edge hvc)⟩
      rcases hcall hs hpc (directChildren_mem hvc) hroom hr with ⟨t, hrun, hrt, he⟩ | hw
      · obtain ⟨hit, hgt, hpt⟩ := hrun.spec hs hpc
        have hvt := hgt.mem_stack hvs
        have hct : t.Visited child := by simp [ComponentSearch.State.Visited, hpt.1]
        rw [he]
        by_cases hc : child ∈ t.stack
        · have hstep := Run.tree (v := node) hi hrun (.done _ _)
          obtain ⟨hl, hgl, -⟩ := hstep.spec hs ⟨hg, htop, hone⟩
          rw [ComponentState.ofSearch_takeLow hc]
          rcases ih hl (.rest hs hgl ⟨hg, htop, hsucc⟩)
            ((room_le_of_grow hgl).trans hroom) (hrt.lower hit hvt hc hvc)
            with ⟨u, hu, hru, heu⟩ | hw
          · exact .inl ⟨u, .tree hi hrun hu, hru, heu⟩
          · exact .inr hw
        · rw [ComponentState.ofSearch_takeLow_of_not_mem hc]
          rcases ih hit (.rest hs hgt ⟨hg, htop, hsucc⟩)
            ((room_le_of_grow hgt).trans hroom)
            (hrt.pass (hit.stack_visited node hvt) hct hc hvc) with ⟨u, hu, hru, heu⟩ | hw
          · exact .inl ⟨u, .treeEmitted hi hrun hc hu, hru, heu⟩
          · exact .inr hw
      · exact .inr ((hw.followChild hg child).foldl hg fuel children)
    | some i =>
      have hvis : s.Visited child := by simp [ComponentSearch.State.Visited, hi]
      obtain ⟨hst, hd⟩ := followNode_of_visited hr hvis fuel
      rw [hst, hd]
      by_cases hc : child ∈ s.stack
      · have hstep : Run graph.directChildren s (.follow node [child]) _ :=
          .seen hi hc (.inr rfl) (.done _ _)
        obtain ⟨hl, hgl, -⟩ := hstep.spec hs ⟨hg, htop, hone⟩
        rw [ComponentState.ofSearch_takeLow hc]
        rcases ih hl (.rest hs hgl ⟨hg, htop, hsucc⟩)
          ((room_le_of_grow hgl).trans hroom) (hr.lower hs hvs hc hvc)
          with ⟨u, hu, hru, heu⟩ | hw
        · exact .inl ⟨u, .seen hi hc (.inr rfl) hu, hru, heu⟩
        · exact .inr hw
      · rw [ComponentState.ofSearch_takeLow_of_not_mem hc]
        rcases ih hs (.rest hs (.refl s) ⟨hg, htop, hsucc⟩) hroom
          (hr.pass (hs.stack_visited node hvs) hvis hc hvc) with ⟨u, hu, hru, heu⟩ | hw
        · exact .inl ⟨u, .past hi hc hu, hru, heu⟩
        · exact .inr hw

/-- **Following a node** is a search, or leaves the first node of a component stuck. A turn for
every node not entered yet is fuel enough. -/
theorem followNode_spec : ∀ {fuel : ℕ} {gray : String → Prop} {s : ComponentSearch.State String}
    {d : Traversal String} {node : String}, Inv graph.directChildren gray s →
    Pre graph.directChildren gray s (.visit node) → node ∈ graph.nodes →
    room graph.nodes.toFinset s ≤ fuel → Right graph s d →
    Follows graph gray s (.visit node) (graph.followNode fuel (.ofSearch s) node)
      (traverseFrom graph.directChildren fuel d node) := by
  intro fuel
  induction fuel with
  | zero =>
    intro gray s d node _ hp hnode hroom _
    have := room_enter_lt (List.mem_toFinset.mpr hnode) hp.1
    omega
  | succ fuel ih =>
    intro gray s d node hs hp hnode hroom hr
    obtain ⟨hf, hreach⟩ := hp
    have henter := hs.enter hf hreach
    have hlt := room_enter_lt (List.mem_toFinset.mpr hnode) hf
    have hvisited : ¬ (ComponentState.ofSearch s).visited node = true := by
      simp [ComponentState.ofSearch, hf]
    have horder : node ∉ d.order := fun h => hr.numbered.mem_order.mp h hf
    rw [followNode, if_neg hvisited, traverseFrom, if_neg horder, ComponentState.ofSearch_enter]
    rcases foldl_follows ih henter (.enter hs hf) (by omega) (hr.enter hs hf hnode)
      with ⟨t, hrun, hrt, he⟩ | hw
    · obtain ⟨hit, hgt, hpt⟩ := hrun.spec henter (.enter hs hf)
      rw [he]
      exact leave_spec hs (.of_follow hs hf hreach hit hgt hpt) hrun hrt hnode
    · -- the first node of a component was left stuck before `node` is left
      refine .inr (Wrong.of_gray (hw.continues (fun first id hg hstuck => ?_) .refl)
        fun _ => .inl)
      exact hstuck.leave fun he => hg (.inr he.symm)

/-- Following every node in turn. -/
theorem foldl_nodes_spec {nodes : List String} (hnodes : ∀ node ∈ nodes, node ∈ graph.nodes)
    {fuel : ℕ} (hfuel : graph.nodes.length ≤ fuel) :
    ∀ {s : ComponentSearch.State String} {d : Traversal String},
      Inv graph.directChildren (fun _ => False) s → Right graph s d →
      (∃ t, ComponentSearch.RunAll graph.directChildren s nodes t ∧
        Right graph t (nodes.foldl (traverseFrom graph.directChildren fuel) d) ∧
        nodes.foldl (graph.followNode fuel) (.ofSearch s) = .ofSearch t) ∨
      Wrong graph (fun _ => False) (nodes.foldl (graph.followNode fuel) (.ofSearch s))
        (nodes.foldl (traverseFrom graph.directChildren fuel) d) := by
  induction nodes with
  | nil => exact fun _ hr => .inl ⟨_, .nil _, hr, rfl⟩
  | cons node nodes ih =>
    intro s d hs hr
    have hnode := hnodes node List.mem_cons_self
    have ih := fun {s d} => @ih (fun n hn => hnodes n (List.mem_cons_of_mem _ hn)) s d
    rw [List.foldl_cons, List.foldl_cons]
    by_cases hi : s.index node = none
    · have hroom : room graph.nodes.toFinset s ≤ fuel :=
        ((Finset.card_filter_le _ _).trans (List.toFinset_card_le _)).trans hfuel
      have hp : Pre graph.directChildren (fun _ => False) s (.visit node) := ⟨hi, fun _ h => h.elim⟩
      rcases followNode_spec hs hp hnode hroom hr with ⟨t, hrun, hrt, he⟩ | hw
      · rw [he]
        rcases ih (hrun.spec hs hp).1 hrt with ⟨u, hu, hru, heu⟩ | hw
        · exact .inl ⟨u, .enter hi hrun hu, hru, heu⟩
        · exact .inr hw
      · exact .inr (hw.foldl_nodes fuel nodes)
    · obtain ⟨hst, hd⟩ := followNode_of_visited hr hi fuel
      rw [hst, hd]
      rcases ih hs hr with ⟨u, hu, hru, heu⟩ | hw
      · exact .inl ⟨u, .skip hi hu, hru, heu⟩
      · exact .inr hw

end Recursion

/-! ## The result -/

section Result

variable {graph : DirectedGraph}

/-- A search from every node finds the strongly connected components, and every component drains to
its first node. -/
theorem isPartition_of_runAll {t : ComponentSearch.State String} {d : Traversal String}
    (h : ComponentSearch.RunAll graph.directChildren .empty graph.nodes t) (hr : Right graph t d) :
    graph.IsPartition t.emitted.reverse ∧
      ∀ first, First graph.directChildren d.order first →
        ∀ node, Mutual graph.directChildren first node → Drains d.log node first := by
  obtain ⟨hs, -, hvis⟩ := h.spec .empty
  refine ⟨⟨?_, fun node => ?_, fun a ha b _ => ?_⟩, fun first hfirst node hm => ?_⟩
  · exact List.pairwise_reverse.mpr (hs.emitted_disjoint.imp fun h => h.symm)
  · simp only [List.mem_reverse]
    rw [hs.mem_emitted_iff]
    exact ⟨fun hv => hr.order_mem node (hr.numbered.mem_order.mpr hv), hvis node⟩
  · simp only [List.mem_reverse]
    exact hs.mutual_iff (hvis a ha)
  · obtain ⟨before, after, horder, hbefore⟩ := hfirst
    have hidx : t.index first = some before.length :=
      (hr.numbered.index first _).mpr (by simp [horder])
    obtain ⟨component, hc, hin, hnode⟩ :=
      (hs.mutual_iff (x := first) (by simp [ComponentSearch.State.Visited, hidx])).mpr hm
    obtain ⟨other, ho, hall⟩ := hr.drained component hc
    -- the node that the component drains to is not entered after `first`, and not before it
    have hle := (hall first hin).1
    have hov : t.Visited other := ((hs.emitted_iff other).mp ⟨component, hc, ho⟩).1
    obtain ⟨i, hi⟩ := Option.ne_none_iff_exists'.mp hov
    have hget := (hr.numbered.index other i).mp hi
    simp only [num, hi, hidx, Option.getD_some] at hle
    rw [horder] at hget
    rcases hle.lt_or_eq with hlt | rfl
    · rw [List.getElem?_append_left hlt] at hget
      exact absurd ((hs.emitted_class component hc first hin other).mp ho)
        (hbefore other (List.mem_of_getElem? hget))
    · have : first = other := by simpa using hget
      exact this ▸ (hall node hnode).2

/-- A stuck node is in no component. -/
theorem Wrong.not_isPartition {st : ComponentState} {d : Traversal String} {gray : String → Prop}
    (h : Wrong graph gray st d) : ¬ graph.IsPartition st.stronglyConnectedComponents := by
  obtain ⟨first, hin, id, node, hstuck, -⟩ := h
  intro hp
  obtain ⟨component, hc, hf⟩ := (hp.cover first).mpr hin
  exact hstuck.not_emitted component hc hf

/-- **The components**: the result is the partition of the nodes into strongly connected components
if and only if every node of a component drains to the first node of its component. -/
theorem isPartition_iff_drainsFirst (graph : DirectedGraph) :
    graph.IsPartition graph.getStronglyConnectedComponents ↔ graph.DrainsFirst := by
  have hempty : Right graph ComponentSearch.State.empty ⟨[], []⟩ :=
    ⟨by simp, .empty, ⟨rfl, by simp [ComponentSearch.State.empty]⟩,
      by simp [Drained, ComponentSearch.State.empty]⟩
  rcases foldl_nodes_spec (fun _ h => h) (Nat.le_succ graph.nodes.length) .empty hempty
    with ⟨t, hrun, hr, he⟩ | hw
  · rw [getStronglyConnectedComponents, ← ComponentState.ofSearch_empty, he]
    obtain ⟨hp, hd⟩ := isPartition_of_runAll hrun hr
    exact ⟨fun _ => hd, fun _ => hp⟩
  · refine ⟨fun hp => absurd hp hw.not_isPartition, fun hd => ?_⟩
    obtain ⟨first, -, -, node, -, -, -, -, hfirst, hm, hn⟩ := hw
    exact absurd (hd first hfirst node hm) hn

/-- A loop of `a` and `b` that is entered from `root`, with a way back to `root` that is followed
after the loop. -/
def nestedLoops : Option DirectedGraph := do
  let graph := ((DirectedGraph.empty.addNode "root").addNode "a").addNode "b"
  let graph ← graph.addConnection ⟨"root", "a", "main", 0, 0⟩
  let graph ← graph.addConnection ⟨"a", "b", "main", 0, 0⟩
  let graph ← graph.addConnection ⟨"a", "root", "main", 1, 0⟩
  graph.addConnection ⟨"b", "a", "main", 0, 0⟩

/-- No component of the nested loops is found: `b` was left with the id of `a` before the way back
from `a` was followed. -/
theorem not_isPartition_nestedLoops :
    ∃ graph, nestedLoops = some graph ∧ graph.getStronglyConnectedComponents = [] ∧
      ¬ graph.IsPartition graph.getStronglyConnectedComponents := by
  have hresult : nestedLoops.map getStronglyConnectedComponents = some [] := by decide
  have hnodes : nestedLoops.map nodes = some ["root", "a", "b"] := by decide
  obtain ⟨graph, hg, hnone⟩ := Option.map_eq_some_iff.mp hresult
  obtain ⟨graph', hg', hnodes⟩ := Option.map_eq_some_iff.mp hnodes
  obtain rfl := Option.some.inj (hg.symm.trans hg')
  refine ⟨graph, hg, hnone, fun h => ?_⟩
  obtain ⟨component, hc, -⟩ := (h.cover "root").mpr (by simp [hnodes])
  simp [hnone] at hc

end Result

end DirectedGraph

end N8n.PartialExecution
