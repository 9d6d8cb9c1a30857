import N8n.Engine.Executable

/-!
# The rule against unmarked cycles

The components of `computeSccMembership` are the classes of mutual reachability, and the first rule
of `validateLoops` looks for a cyclic component among the edges that are not marked. It finds one
exactly if those edges have a cycle.

## Main results

* `membersOf_eq_iff`: two nodes have one member set exactly if each reaches the other
* `exists_cycle_of_isCyclic`: a component that counts as cyclic has a cycle
* `checkForwardAcyclic_iff`: the rule accepts the graphs without an unmarked cycle
-/

namespace N8n.Engine

open ComponentSearch (Reach Mutual)
open Relation (TransGen ReflTransGen)

section Members

variable {graph : WorkflowGraph} {edges : List GraphEdge} {a b : String} {members : List String}

/-- The members of a node are the members of each of them. -/
theorem membersOf_of_mem (h : membersOf (computeSccMembership graph edges) a = some members)
    (hb : b ∈ members) : membersOf (computeSccMembership graph edges) b = some members := by
  obtain ⟨t, hr, he⟩ := computeSccMembership_run graph edges
  obtain ⟨ht, -, -⟩ := hr.spec .empty
  rw [he, membersOf_ofSearch ht] at h ⊢
  exact ⟨h.1, hb⟩

/-- **Two nodes of the graph have one member set** exactly if each is reached from the other. -/
theorem membersOf_eq_iff (ha : a ∈ graph.nodes.map GraphNode.id)
    (hb : b ∈ graph.nodes.map GraphNode.id) :
    membersOf (computeSccMembership graph edges) a =
      membersOf (computeSccMembership graph edges) b ↔ Mutual (targets edges) a b := by
  obtain ⟨members, hms⟩ := exists_members edges (List.mem_map.mp ha)
  obtain ⟨members', hms'⟩ := exists_members edges (List.mem_map.mp hb)
  constructor
  · intro heq
    apply (mem_members_iff hms).mp
    -- a node is among its own members
    have hself : b ∈ members' := (mem_members_iff hms').mpr (Mutual.refl b)
    rwa [Option.some.inj (hms.symm.trans (heq.trans hms'))]
  · intro hab
    rw [hms, membersOf_of_mem hms ((mem_members_iff hms).mpr hab)]

/-- A component that counts as cyclic has a cycle. -/
theorem exists_cycle_of_isCyclic
    (h : membersOf (computeSccMembership graph edges) a = some members)
    (hc : isCyclic members edges = true) :
    ∃ x, TransGen (fun a b => b ∈ targets edges a) x x := by
  have hclass := fun x => mem_members_iff (x := x) h
  have hnodup := nodup_members h
  match members, hc with
  | [only], hc =>
    obtain ⟨edge, he, hloop⟩ := List.any_eq_true.mp hc
    obtain ⟨hfrom, hto⟩ : edge.from = only ∧ edge.to = only := by simpa using hloop
    exact ⟨only, .single (mem_targets.mpr ⟨edge, he, hfrom, hto⟩)⟩
  | x :: y :: rest, _ =>
    -- two different members reach each other, so a path leads from the first back to it
    have hxy : x ≠ y := by
      rintro rfl
      exact (List.nodup_cons.mp hnodup).1 List.mem_cons_self
    have hx := (hclass x).mp List.mem_cons_self
    have hy := (hclass y).mp (List.mem_cons_of_mem _ List.mem_cons_self)
    have hto : Reach (targets edges) x y := hx.2.trans hy.1
    have hback : Reach (targets edges) y x := hy.2.trans hx.1
    rcases Relation.reflTransGen_iff_eq_or_transGen.mp hto with heq | hto
    · exact absurd heq.symm hxy
    · exact ⟨x, hto.trans_left hback⟩

end Members

section Rule

variable {graph : WorkflowGraph}

theorem targets_forward : (fun a b => b ∈ targets
    (graph.edges.filter fun edge => ¬ edge.isBackEdge) a) = graph.Forward := by
  ext a b
  exact forward_iff_mem_targets

/-- What the rule rejects has a cycle of edges that are not marked. -/
theorem exists_cycle_of_rejected (h : checkForwardAcyclic graph ≠ .ok ()) :
    ∃ x, TransGen graph.Forward x x := by
  by_contra hnone
  push Not at hnone
  apply h
  unfold checkForwardAcyclic
  simp only [checks_ok_iff, rejectIf_ok, List.mem_eraseDups]
  intro members hmem hc
  obtain ⟨a, hms⟩ := mem_membership_values.mp hmem
  obtain ⟨x, hx⟩ := exists_cycle_of_isCyclic hms hc
  rw [targets_forward] at hx
  exact hnone x hx

theorem endpoints_of_checkEndpoints (h : checkEndpoints graph = .ok ()) :
    ∀ e ∈ graph.edges, e.from ∈ graph.nodes.map GraphNode.id := by
  intro e he
  unfold checkEndpoints at h
  simp only [checks_ok_iff, rejectIf_ok, not_not] at h
  exact h e he _ List.mem_cons_self

/-- **The rule against unmarked cycles is exact**: two nodes get the same members exactly if each is
reachable from the other, over any edges, and the first rule of a graph whose edges all end at nodes
of the graph passes exactly if the edges without a mark have no cycle. -/
theorem checkForwardAcyclic_iff (graph : WorkflowGraph) :
    (∀ edges, ∀ a ∈ graph.nodes.map GraphNode.id, ∀ b ∈ graph.nodes.map GraphNode.id,
      (membersOf (computeSccMembership graph edges) a =
        membersOf (computeSccMembership graph edges) b ↔
        ReflTransGen (fun x y => ∃ edge ∈ edges, edge.from = x ∧ edge.to = y) a b ∧
        ReflTransGen (fun x y => ∃ edge ∈ edges, edge.from = x ∧ edge.to = y) b a)) ∧
    (checkEndpoints graph = .ok () →
      (checkForwardAcyclic graph = .ok () ↔ ∀ x, ¬ TransGen graph.Forward x x)) := by
  refine ⟨fun edges a ha b hb => ?_, fun hends => ⟨fun hok => ?_, fun hacyclic => ?_⟩⟩
  · rw [membersOf_eq_iff ha hb]
    have hstep : (fun x y => ∃ edge ∈ edges, edge.from = x ∧ edge.to = y) =
        fun x y => y ∈ targets edges x := by
      ext x y
      exact mem_targets.symm
    rw [hstep]
    rfl
  · exact forward_acyclic hok (endpoints_of_checkEndpoints hends)
  · by_contra hrejected
    obtain ⟨x, hx⟩ := exists_cycle_of_rejected hrejected
    exact hacyclic x hx

def returning (isBackEdge : Bool) : WorkflowGraph where
  nodes := [⟨"start", "Start", .trigger, none⟩, ⟨"work", "Work", .v1Node, none⟩,
    ⟨"check", "Check", .v1Node, none⟩]
  edges := [⟨"start", "work", 0, 0, false⟩, ⟨"work", "check", 0, 0, false⟩,
    ⟨"check", "work", 0, 0, isBackEdge⟩]

/-- Without the mark the rule rejects the graph, with it the rule does not. -/
theorem checkForwardAcyclic_iff_returning :
    (∃ x, TransGen (returning false).Forward x x) ∧ ∀ x, ¬ TransGen (returning true).Forward x x := by
  refine ⟨?_, ((checkForwardAcyclic_iff (returning true)).2 rfl).mp rfl⟩
  by_contra hnone
  push Not at hnone
  have hok := ((checkForwardAcyclic_iff (returning false)).2 rfl).mpr hnone
  have hrejected : (checkForwardAcyclic (returning false)).toOption = none := rfl
  rw [hok] at hrejected
  cases hrejected

end Rule

end N8n.Engine
