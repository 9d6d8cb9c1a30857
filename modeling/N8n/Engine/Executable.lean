import N8n.Engine.Loops
import Mathlib.Data.Finset.Card

/-!
# Executable graphs

What a graph that passes `validateExecutableGraph` is like, in the terms the planner needs: its
forward edges have no cycle, every loop is entered and left through its batch node only, and a node
lies in at most one loop.

## Main definitions

* `WorkflowGraph.Forward`: there is an edge between two node ids that is not a back-edge
* `Executable graph trigger`: the rules of `validateExecutableGraph`
* `Executable.rank`: the number of nodes before a node along forward edges

## Main results

* `exists_executable`: an accepted graph is executable
* `Executable.loop_unique`: a node lies in at most one loop
* `Executable.entry_edge`, `Executable.exit_edge`, `Executable.intra_edge`: the forward edges into,
  out of and inside a loop
* `Executable.rank_lt`: a forward edge raises the rank
-/

namespace N8n.Engine

open ComponentSearch (Reach Mutual)
open Relation (TransGen ReflTransGen)

/-- Some edge that is not a back-edge leads from `a` to `b`. -/
def WorkflowGraph.Forward (graph : WorkflowGraph) (a b : String) : Prop :=
  ∃ edge ∈ graph.edges, edge.isBackEdge = false ∧ edge.from = a ∧ edge.to = b

/-- The rules an accepted graph follows. -/
structure Executable (graph : WorkflowGraph) (trigger : GraphNode) : Prop where
  triggers : (graph.nodes.filter fun node => node.type = .trigger) = [trigger]
  nodup_ids : (graph.nodes.map GraphNode.id).Nodup
  endpoints : ∀ e ∈ graph.edges,
    e.from ∈ graph.nodes.map GraphNode.id ∧ e.to ∈ graph.nodes.map GraphNode.id
  acyclic : ∀ x, ¬ TransGen graph.Forward x x
  batch_loops : ∀ b ∈ batchNodeIds graph, ∃ loop ∈ deriveLoops graph, loop.batchNodeId = b
  head_batch : ∀ loop ∈ deriveLoops graph, loop.batchNodeId ∈ batchNodeIds graph
  trigger_outside : ∀ loop ∈ deriveLoops graph, trigger.id ∉ loop.memberIds
  only_batch : ∀ loop ∈ deriveLoops graph, ∀ x ∈ loop.memberIds, x ∈ batchNodeIds graph →
    x = loop.batchNodeId
  back_from : ∀ loop ∈ deriveLoops graph, ∀ e ∈ loop.backEdges, e.from ∈ loop.memberIds
  back_length : ∀ loop ∈ deriveLoops graph, loop.backEdges.length ≤ 1
  exit_from : ∀ loop ∈ deriveLoops graph, ∀ e ∈ loop.exitEdges,
    e.from = loop.batchNodeId ∧ e.outputIndex = 0
  no_entry : ∀ loop ∈ deriveLoops graph, ∀ e ∈ graph.edges, e.isBackEdge = false →
    e.to ∈ loop.memberIds → e.to ≠ loop.batchNodeId → e.from ∈ loop.memberIds
  closed : ∀ e ∈ graph.edges, e.to ∈ reachableFrom graph trigger.id →
    e.from ∈ reachableFrom graph trigger.id

/-! ## What the component rule says -/

theorem edge_iff_mem_targets {graph : WorkflowGraph} {a b : String} :
    b ∈ targets graph.edges a ↔ graph.Edge a b := mem_targets

theorem reach_iff {graph : WorkflowGraph} {a b : String} :
    Reach (targets graph.edges) a b ↔ ReflTransGen graph.Edge a b := by
  have he : (fun a b => b ∈ targets graph.edges a) = graph.Edge :=
    funext₂ fun _ _ => propext edge_iff_mem_targets
  rw [Reach, he]

theorem forward_iff_mem_targets {graph : WorkflowGraph} {a b : String} :
    b ∈ targets (graph.edges.filter fun edge => ¬ edge.isBackEdge) a ↔ graph.Forward a b := by
  simp [mem_targets, WorkflowGraph.Forward, and_assoc]

theorem isCyclic_of_transGen {edges : List GraphEdge} {members : List String} {x : String}
    (hm : ∀ y, y ∈ members ↔ Mutual (targets edges) x y)
    (hx : TransGen (fun a b => b ∈ targets edges a) x x) : isCyclic members edges := by
  have hmem : x ∈ members := (hm x).mpr (Mutual.refl x)
  obtain ⟨y, hxy, hyx⟩ := TransGen.head'_iff.mp hx
  have hy : y ∈ members := (hm y).mpr ⟨Reach.edge hxy, hyx⟩
  match members, hmem, hy with
  | [only], hmem, hy =>
    obtain rfl := List.mem_singleton.mp hmem
    obtain rfl := List.mem_singleton.mp hy
    obtain ⟨e, he, hf, ht⟩ := mem_targets.mp hxy
    exact List.any_eq_true.mpr ⟨e, he, by simp [hf, ht]⟩
  | _ :: _ :: _, _, _ => rfl

/-- Rule 1 leaves no cycle of forward edges. -/
theorem forward_acyclic {graph : WorkflowGraph} (h : checkForwardAcyclic graph = .ok ())
    (hend : ∀ e ∈ graph.edges, e.from ∈ graph.nodes.map GraphNode.id) (x : String) :
    ¬ TransGen graph.Forward x x := by
  intro hx
  set forward := graph.edges.filter fun edge => ¬ edge.isBackEdge with hforward
  have hx' : TransGen (fun a b => b ∈ targets forward a) x x := by
    have he : (fun a b => b ∈ targets forward a) = graph.Forward :=
      funext₂ fun _ _ => propext forward_iff_mem_targets
    rwa [he]
  obtain ⟨y, ⟨e, he, -, rfl, -⟩, -⟩ := TransGen.head'_iff.mp hx
  obtain ⟨node, hn, hid⟩ := List.mem_map.mp (hend e he)
  obtain ⟨members, hms⟩ := exists_members forward ⟨node, hn, hid⟩
  unfold checkForwardAcyclic at h
  simp only [checks_ok_iff, rejectIf_ok, List.mem_eraseDups] at h
  exact h members (mem_membership_values.mpr ⟨_, hms⟩)
    (isCyclic_of_transGen (fun _ => mem_members_iff hms) hx')

/-- **An accepted graph is executable.** -/
theorem exists_executable {graph : WorkflowGraph} (h : validateExecutableGraph graph = .ok ()) :
    ∃ trigger, Executable graph trigger := by
  unfold validateExecutableGraph at h
  split at h
  · cases h
  · cases h
  · rename_i trigger htr
    refine ⟨trigger, ?_⟩
    simp only [bind_ok, checks_ok_iff, rejectIf_ok] at h
    obtain ⟨hloops, hclosed, -, -⟩ := h
    unfold validateLoops checkEndpoints checkBatchNodesLoop checkHead checkMembers checkBackEdges
      checkBatchSlots checkBoundary at hloops
    simp only [bind_ok, checks_ok_iff, rejectIf_ok, checkDistinctIds_ok, not_not] at hloops
    obtain ⟨⟨hids, -⟩, hend, hacyc, hbatch, hrules⟩ := hloops
    have hends : ∀ e ∈ graph.edges,
        e.from ∈ graph.nodes.map GraphNode.id ∧ e.to ∈ graph.nodes.map GraphNode.id :=
      fun e he => ⟨hend e he _ (by simp), hend e he _ (by simp)⟩
    have htrigger : ∀ x, x ∈ triggerNodeIds graph ↔ x = trigger.id := by simp [triggerNodeIds, htr]
    exact {
      triggers := htr
      nodup_ids := hids
      endpoints := hends
      acyclic := forward_acyclic hacyc fun e he => (hends e he).1
      batch_loops := fun b hb => by simpa using hbatch b hb
      head_batch := fun loop hl => (hrules loop hl).1.1
      trigger_outside := fun loop hl ht =>
        (hrules loop hl).2.1.1 _ ht ((htrigger _).mpr rfl)
      only_batch := fun loop hl x hx hb => by
        by_contra hne
        exact (hrules loop hl).2.1.2 x hx ⟨hne, hb⟩
      back_from := fun loop hl e he => ((hrules loop hl).2.2.1.1 e he).2
      back_length := fun loop hl => not_lt.mp (hrules loop hl).2.2.1.2
      exit_from := fun loop hl => (hrules loop hl).2.2.2.2.1
      no_entry := fun loop hl e he hb ht hne => by
        by_contra hf
        exact ((hrules loop hl).2.2.2.2.2 e he).2 ⟨by simp [hb], ht, hne, hf⟩
      closed := fun e he ht => by
        by_contra hf
        exact hclosed e he ⟨ht, hf⟩ }

/-! ## Reachability from the trigger -/

theorem mem_reachableFrom {graph : WorkflowGraph} {a x : String} :
    x ∈ reachableFrom graph a ↔ ReflTransGen graph.Edge a x := by
  rw [reachableFrom, List.mem_cons, mem_getDescendantNodeIds, Relation.reflTransGen_iff_eq_or_transGen]

namespace Executable

variable {graph : WorkflowGraph} {trigger : GraphNode} (h : Executable graph trigger) {x : String}

include h

section Loops

variable {loop : WorkflowLoop} {e : GraphEdge}

section Loops

variable (hl : loop ∈ deriveLoops graph)
include hl

theorem head_node : ∃ node ∈ graph.nodes, node.id = loop.batchNodeId := by
  obtain ⟨node, hn, hid⟩ := List.mem_map.mp (h.head_batch loop hl)
  exact ⟨node, (List.mem_filter.mp hn).1, hid⟩

theorem members_eq :
    membersOf (computeSccMembership graph graph.edges) loop.batchNodeId = some loop.memberIds := by
  obtain ⟨members, hms⟩ := exists_members graph.edges (h.head_node hl)
  obtain ⟨b, -, rfl⟩ := mem_deriveLoops.mp hl
  change membersOf _ b = some members at hms
  change membersOf _ b = some ((membersOf _ b).getD [b])
  rw [hms, Option.getD_some]

/-- The members are the nodes on a path from the head and back to it. -/
theorem mem_members :
    x ∈ loop.memberIds ↔ ReflTransGen graph.Edge loop.batchNodeId x ∧
      ReflTransGen graph.Edge x loop.batchNodeId := by
  rw [mem_members_iff (h.members_eq hl), Mutual, reach_iff, reach_iff]

theorem nodup_memberIds : loop.memberIds.Nodup :=
  nodup_members (h.members_eq hl)

theorem head_mem : loop.batchNodeId ∈ loop.memberIds :=
  (h.mem_members hl).mpr ⟨.refl, .refl⟩

theorem mem_of_eq_head (hx : x = loop.batchNodeId) : x ∈ loop.memberIds :=
  hx ▸ h.head_mem hl

/-- **A node lies in at most one loop.** -/
theorem loop_unique {loop' : WorkflowLoop} (hl' : loop' ∈ deriveLoops graph)
    (hx : x ∈ loop.memberIds) (hx' : x ∈ loop'.memberIds) : loop = loop' := by
  refine loop_eq_of_head hl hl' (Eq.symm (h.only_batch loop hl _ ?_ (h.head_batch loop' hl')))
  obtain ⟨hbx, hxb⟩ := (h.mem_members hl).mp hx
  obtain ⟨hbx', hxb'⟩ := (h.mem_members hl').mp hx'
  exact (h.mem_members hl).mpr ⟨hbx.trans hxb', hbx'.trans hxb⟩

theorem not_mem_of_ne_head {loop' : WorkflowLoop} (hl' : loop' ∈ deriveLoops graph)
    (hx : x ∈ loop.memberIds) (hne : x ≠ loop.batchNodeId) : x ≠ loop'.batchNodeId := by
  rintro rfl
  exact hne (congrArg _ (h.loop_unique hl' hl (h.head_mem hl') hx))

end Loops

theorem back_edge (he : e ∈ graph.edges) (hb : e.isBackEdge = true) :
    ∃ loop ∈ deriveLoops graph, loop.batchNodeId = e.to ∧ e ∈ loop.backEdges ∧
      e.from ∈ loop.memberIds := by
  set loop := loopAt graph e.to
    ((membersOf (computeSccMembership graph graph.edges) e.to).getD [e.to]) with hloop
  have hl : loop ∈ deriveLoops graph := mem_deriveLoops.mpr ⟨e.to, ⟨e, he, hb, rfl⟩, rfl⟩
  have hbe : e ∈ loop.backEdges := List.mem_filter.mpr ⟨he, by simp [hb]⟩
  exact ⟨loop, hl, rfl, hbe, h.back_from loop hl e hbe⟩

/-- The members are reached from the head along forward edges. -/
theorem forward_from_head (hl : loop ∈ deriveLoops graph) (hx : x ∈ loop.memberIds) :
    ReflTransGen graph.Forward loop.batchNodeId x := by
  obtain ⟨hbx, hxb⟩ := (h.mem_members hl).mp hx
  clear hx
  induction hbx with
  | refl => exact .refl
  | @tail y z hby hyz ih =>
    have hyb : ReflTransGen graph.Edge y loop.batchNodeId := .head hyz hxb
    have hz : z ∈ loop.memberIds := (h.mem_members hl).mpr ⟨hby.tail hyz, hxb⟩
    obtain ⟨e, he, rfl, rfl⟩ := hyz
    cases hb : e.isBackEdge with
    | false => exact (ih hyb).tail ⟨e, he, hb, rfl, rfl⟩
    | true =>
      -- the only back-edge target among the members is the head itself
      obtain ⟨loop', hl', hhead, -, -⟩ := h.back_edge he hb
      have := h.loop_unique hl' hl (hhead ▸ h.head_mem hl') hz
      rw [← hhead, this]

section Loops

variable (hl : loop ∈ deriveLoops graph) (he : e ∈ graph.edges) (hb : e.isBackEdge = false)
include hl he hb

/-- A forward edge inside a loop does not return to its head. -/
theorem intra_edge (hf : e.from ∈ loop.memberIds) : e.to ≠ loop.batchNodeId := by
  intro ht
  exact h.acyclic loop.batchNodeId
    (.tail' (h.forward_from_head hl hf) ⟨e, he, hb, rfl, ht⟩)

/-- A forward edge that leaves a loop leaves it from the head. -/
theorem exit_edge (hf : e.from ∈ loop.memberIds) (ht : e.to ∉ loop.memberIds) :
    e.from = loop.batchNodeId ∧ e.outputIndex = 0 := by
  refine h.exit_from loop hl e ?_
  obtain ⟨b, -, rfl⟩ := mem_deriveLoops.mp hl
  exact List.mem_filter.mpr ⟨he, by simpa [hb] using ⟨hf, ht⟩⟩

/-- A forward edge that enters a loop enters it at the head. -/
theorem entry_edge (hf : e.from ∉ loop.memberIds) (ht : e.to ∈ loop.memberIds) :
    e.to = loop.batchNodeId := by
  by_contra hne
  exact hf (h.no_entry loop hl e he hb ht hne)

end Loops

end Loops

section Reachable

theorem reachable_members {loop : WorkflowLoop} (hl : loop ∈ deriveLoops graph) {x y a : String}
    (hx : x ∈ loop.memberIds) (hy : y ∈ loop.memberIds) (ha : x ∈ reachableFrom graph a) :
    y ∈ reachableFrom graph a := by
  obtain ⟨-, hxb⟩ := (h.mem_members hl).mp hx
  obtain ⟨hby, -⟩ := (h.mem_members hl).mp hy
  exact mem_reachableFrom.mpr ((mem_reachableFrom.mp ha).trans (hxb.trans hby))

omit h in
theorem reachable_edge {a x y : String} (hx : x ∈ reachableFrom graph a)
    (hxy : graph.Edge x y) : y ∈ reachableFrom graph a :=
  mem_reachableFrom.mpr ((mem_reachableFrom.mp hx).tail hxy)

/-- **The nodes run in the order of the forward edges**: a node the trigger reaches is the trigger
or has a forward edge into it, and a loop has one into its head from outside. -/
theorem exists_forward_into (hx : x ∈ reachableFrom graph trigger.id) (hne : x ≠ trigger.id)
    (hhead : ∀ loop ∈ deriveLoops graph, x ∈ loop.memberIds → x = loop.batchNodeId) :
    ∃ e ∈ graph.edges, e.isBackEdge = false ∧ e.to = x ∧
      ∀ loop ∈ deriveLoops graph, x ∈ loop.memberIds → e.from ∉ loop.memberIds := by
  by_cases hin : ∃ loop ∈ deriveLoops graph, x ∈ loop.memberIds
  · obtain ⟨loop, hl, hxl⟩ := hin
    have hreach : Reach (targets graph.edges) trigger.id x :=
      reach_iff.mpr (mem_reachableFrom.mp hx)
    obtain ⟨y, z, hy, hz, hyz, -, -⟩ := hreach.exists_leaving (p := fun y => y ∉ loop.memberIds)
      (h.trigger_outside loop hl) (not_not.mpr hxl)
    obtain ⟨e, he, rfl, rfl⟩ := mem_targets.mp hyz
    have hz := not_not.mp hz
    have hb : e.isBackEdge = false := by
      by_contra hb
      obtain ⟨loop', hl', hhead', -, hfrom⟩ := h.back_edge he (by simpa using hb)
      rw [h.loop_unique hl' hl (hhead' ▸ h.head_mem hl') hz] at hfrom
      exact hy hfrom
    refine ⟨e, he, hb, ?_, fun loop' hl' hx' => ?_⟩
    · rw [h.entry_edge hl he hb hy hz, hhead loop hl hxl]
    · rwa [h.loop_unique hl' hl hx' hxl]
  · rcases Relation.ReflTransGen.cases_tail (mem_reachableFrom.mp hx) with heq | ⟨y, -, e, he, -, ht⟩
    · exact absurd heq hne
    · refine ⟨e, he, ?_, ht, fun loop hl hxl => absurd ⟨loop, hl, hxl⟩ hin⟩
      by_contra hb
      obtain ⟨loop, hl, hhead', -, -⟩ := h.back_edge he (by simpa using hb)
      exact hin ⟨loop, hl, ht ▸ hhead' ▸ h.head_mem hl⟩

end Reachable

/-! ## The order of the forward edges -/

open Classical in
/-- The number of nodes before `x` along forward edges. -/
noncomputable def rank (graph : WorkflowGraph) (x : String) : ℕ :=
  ((graph.nodes.map GraphNode.id).toFinset.filter fun y => TransGen graph.Forward y x).card

/-- **A forward edge raises the rank.** -/
theorem rank_lt {a b : String} (hab : graph.Forward a b) : rank graph a < rank graph b := by
  classical
  refine Finset.card_lt_card ⟨fun y hy => ?_, fun hsub => ?_⟩
  · rw [Finset.mem_filter] at hy ⊢
    exact ⟨hy.1, hy.2.tail hab⟩
  · obtain ⟨e, he, -, rfl, -⟩ := id hab
    have ha := hsub (Finset.mem_filter.mpr
      ⟨List.mem_toFinset.mpr (h.endpoints e he).1, .single hab⟩)
    exact h.acyclic _ (Finset.mem_filter.mp ha).2

end Executable

end N8n.Engine
