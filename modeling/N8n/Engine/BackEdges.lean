import N8n.Engine.Executable

/-!
# Marking the back-edges of a converted workflow

A workflow is converted to an execution graph by marking the edge that closes each of its loops. The
loops are found from the outside in: the edges that return to the entry of a loop are marked and cut,
and a loop inside comes up as a component of its own in the next round.

## Main definitions

* `resolveSingleBatchEntry`: the batch node through which a loop is entered
* `markBackEdges`: the rounds that mark and cut, until no cycle is left
* `IsEntry`: a batch node is the only way into its component, whatever the order of the edges
* `SameOutcome`: both conversions are rejected, or the same edges are marked

## Main results

* `markComponents_ok_iff`: what a round does, in terms that do not depend on any order
* `markBackEdges_valid`: the outcome does not depend on the order of nodes and edges, there is one,
  and the marked graph passes the rules of the engine on cycles and on where back-edges are
-/

namespace N8n.Engine

open ComponentSearch (Reach Mutual)
open Relation (TransGen ReflTransGen)

/-! ## The conversion -/

/-- The errors for a cycle that cannot be converted, with the names they list. -/
inductive ConversionError
  | unsupportedCycle (nodeNames : List String)
  | unsupportedLoopEntry (memberNames entryNames : List String)

/-- The components over `edges` in the order in which they are found. The search is the one of
`computeSccMembership`, which records a component for each of its members. -/
def computeSccs (nodes : List GraphNode) (edges : List GraphEdge) : List (List String) :=
  ((computeSccMembership ⟨nodes, edges⟩ edges).map Prod.snd).eraseDups

def selfLoopNodeIds (edges : List GraphEdge) : List String :=
  (edges.filter fun edge => edge.from = edge.to).map GraphEdge.from

def cyclicSccs (nodes : List GraphNode) (remaining : List GraphEdge) : List (List String) :=
  (computeSccs nodes remaining).filter fun members =>
    1 < members.length || members.head?.any fun id => id ∈ selfLoopNodeIds remaining

def externalEntries (members : List String) (edges : List GraphEdge) : List String :=
  ((edges.filter fun edge => edge.to ∈ members ∧ edge.from ∉ members).map GraphEdge.to).eraseDups

/-- The ways into a loop. One that nothing points into is entered at its batch nodes. -/
def loopEntries (members : List String) (edges : List GraphEdge) (batchNodeIds : List String) :
    List String :=
  let externalEntries := externalEntries members edges
  if externalEntries = [] then members.filter fun id => id ∈ batchNodeIds else externalEntries

/-- The only way into a loop, which has to be a batch node. -/
def resolveSingleBatchEntry (members : List String) (edges : List GraphEdge)
    (batchNodeIds : List String) (name : String → String) : Except ConversionError String :=
  let batchMembers := members.filter fun id => id ∈ batchNodeIds
  if batchMembers = [] then .error (.unsupportedCycle (members.map name))
  else
    let entries := loopEntries members edges batchNodeIds
    let error := .unsupportedLoopEntry (members.map name) (entries.map name)
    match entries with
    | [entry] => if entry ∈ batchNodeIds then .ok entry else .error error
    | _ => .error error

def markReturns (entryId : String) (members : List String) (edges : List GraphEdge) :
    List GraphEdge :=
  edges.map fun edge =>
    if edge.to = entryId ∧ edge.from ∈ members then { edge with isBackEdge := true } else edge

section Conversion

variable (nodes : List GraphNode)

def entryOf (remaining : List GraphEdge) (members : List String) : Except ConversionError String :=
  resolveSingleBatchEntry members remaining (batchNodeIds ⟨nodes, remaining⟩)
    (nodeName ⟨nodes, remaining⟩)

def markComponents (remaining : List GraphEdge) :
    List (List String) → List GraphEdge → Except ConversionError (List GraphEdge)
  | [], edges => .ok edges
  | members :: sccs, edges =>
    match entryOf nodes remaining members with
    | .error error => .error error
    | .ok entryId => markComponents remaining sccs (markReturns entryId members edges)

/-- The edges that are not marked. No edge is marked at first. -/
def unmarked (edges : List GraphEdge) : List GraphEdge := edges.filter fun edge => !edge.isBackEdge

/-- The rounds of marking; `fuel` bounds their number, and `none` says that it did not suffice. -/
def markRounds : ℕ → List GraphEdge → Option (Except ConversionError (List GraphEdge))
  | 0, _ => none
  | fuel + 1, edges =>
    let remaining := unmarked edges
    if remaining = [] then some (.ok edges)
    else
      let sccs := cyclicSccs nodes remaining
      if sccs = [] then some (.ok edges)
      else
        match markComponents nodes remaining sccs edges with
        | .error error => some (.error error)
        | .ok edges => markRounds fuel edges

attribute [grind =] markComponents markRounds

def markBackEdges (edges : List GraphEdge) : Option (Except ConversionError (List GraphEdge)) :=
  markRounds nodes (edges.length + 1) edges

end Conversion

/-! ## The entry of a component -/

section Entry

variable {batch : List String} {edges edges' : List GraphEdge} {b b' : String}
  {name : String → String}

/-- The batch node is the only node of its component that an edge from outside leads to, or nothing
leads there and it is the only batch node in it. -/
structure IsEntry (batch : List String) (edges : List GraphEdge) (b : String) : Prop where
  mem : b ∈ batch
  only : ∀ e ∈ edges, Mutual (targets edges) b e.to → ¬ Mutual (targets edges) b e.from → e.to = b
  alone : (∀ e ∈ edges, Mutual (targets edges) b e.to → Mutual (targets edges) b e.from) →
    ∀ x ∈ batch, Mutual (targets edges) b x → x = b

theorem eq_singleton {α : Type} {l : List α} {a : α} (hnd : l.Nodup) (ha : a ∈ l)
    (hall : ∀ x ∈ l, x = a) : l = [a] := by
  have hl := List.eq_replicate_of_mem hall
  rw [hl] at hnd ha ⊢
  have hlen := List.nodup_replicate.mp hnd
  cases hn : l.length with
  | zero => simp [hn] at ha
  | succ n =>
    obtain rfl : n = 0 := by omega
    rfl

theorem mem_externalEntries {members : List String} {y : String} :
    y ∈ externalEntries members edges ↔ ∃ e ∈ edges, e.to = y ∧ y ∈ members ∧ e.from ∉ members := by
  simp only [externalEntries, List.mem_eraseDups, List.mem_map, List.mem_filter,
    decide_eq_true_eq]
  constructor
  · rintro ⟨e, ⟨he, hto, hfrom⟩, rfl⟩
    exact ⟨e, he, rfl, hto, hfrom⟩
  · rintro ⟨e, he, rfl, hto, hfrom⟩
    exact ⟨e, ⟨he, hto, hfrom⟩, rfl⟩

/-- An entry is resolved if it is the only one and a batch node. -/
theorem resolveSingleBatchEntry_eq_ok {members : List String} :
    resolveSingleBatchEntry members edges batch name = .ok b ↔
      (∃ x ∈ members, x ∈ batch) ∧ loopEntries members edges batch = [b] ∧ b ∈ batch := by
  have hnone : (members.filter fun id => id ∈ batch) = [] ↔ ¬ ∃ x ∈ members, x ∈ batch := by
    simp [List.filter_eq_nil_iff]
  simp only [resolveSingleBatchEntry, hnone]
  by_cases hb : ∃ x ∈ members, x ∈ batch
  · rw [if_neg (not_not.mpr hb)]
    match loopEntries members edges batch with
    | [] => simp [hb]
    | [entry] =>
      by_cases hentry : entry ∈ batch
      · simp only [hentry, if_true, Except.ok.injEq, hb, List.cons.injEq, and_true, true_and]
        exact ⟨fun h => ⟨h, h ▸ hentry⟩, And.left⟩
      · simp only [hentry, if_false, reduceCtorEq, hb, List.cons.injEq, and_true, true_and,
          false_iff, not_and]
        rintro rfl
        exact hentry
    | _ :: _ :: _ => simp
  · simp [hb]

section Component

variable {members : List String} {x : String}
  (hm : ∀ y, y ∈ members ↔ Mutual (targets edges) x y)
include hm

theorem mutual_iff_mem {a y : String} (ha : a ∈ members) :
    Mutual (targets edges) a y ↔ y ∈ members := by
  rw [hm]
  exact ⟨((hm a).mp ha).trans, ((hm a).mp ha).symm.trans⟩

/-- The only way into a component is its entry. -/
theorem isEntry_of_loopEntries (hentries : loopEntries members edges batch = [b])
    (hb : b ∈ batch) : b ∈ members ∧ IsEntry batch edges b := by
  simp only [loopEntries] at hentries
  split_ifs at hentries with hempty
  · -- nothing leads in: the batch node stands in
    have hmem := List.mem_filter.mp (hentries ▸ List.mem_cons_self (a := b))
    have hin : ∀ e ∈ edges, e.to ∈ members → e.from ∈ members := by
      intro e he hto
      by_contra hfrom
      exact List.not_mem_nil (hempty ▸ mem_externalEntries.2 ⟨e, he, rfl, hto, hfrom⟩)
    refine ⟨hmem.1, hb, fun e he hto hfrom => ?_, fun _ y hy hmut => ?_⟩
    · rw [mutual_iff_mem hm hmem.1] at hto hfrom
      exact absurd (hin e he hto) hfrom
    · rw [mutual_iff_mem hm hmem.1] at hmut
      have : y ∈ members.filter fun id => id ∈ batch := List.mem_filter.mpr ⟨hmut, by simpa⟩
      rwa [hentries, List.mem_singleton] at this
  · obtain ⟨e, he, hto, hmem, hfrom⟩ := mem_externalEntries.1
      (hentries ▸ List.mem_cons_self (a := b))
    refine ⟨hmem, hb, fun e' he' hto' hfrom' => ?_, fun hin => ?_⟩
    · rw [mutual_iff_mem hm hmem] at hto' hfrom'
      have := mem_externalEntries.2 ⟨e', he', rfl, hto', hfrom'⟩
      rwa [hentries, List.mem_singleton] at this
    · exact absurd ((mutual_iff_mem hm hmem).mp (hin e he (by rw [hto]; exact Mutual.refl b))) hfrom

/-- The entry of a component is its only way in. -/
theorem loopEntries_of_isEntry (hnd : members.Nodup) (hmem : b ∈ members)
    (hentry : IsEntry batch edges b) : loopEntries members edges batch = [b] := by
  simp only [loopEntries]
  split_ifs with hempty
  · refine eq_singleton (hnd.filter _) (List.mem_filter.mpr ⟨hmem, by simpa using hentry.mem⟩) ?_
    intro y hy
    obtain ⟨hy, hyb⟩ := List.mem_filter.mp hy
    refine hentry.alone (fun e he hto => ?_) y (by simpa using hyb) ((mutual_iff_mem hm hmem).mpr hy)
    rw [mutual_iff_mem hm hmem] at hto ⊢
    by_contra hfrom
    exact List.not_mem_nil (hempty ▸ mem_externalEntries.2 ⟨e, he, rfl, hto, hfrom⟩)
  · have hall : ∀ y ∈ externalEntries members edges, y = b := by
      intro y hy
      obtain ⟨e, he, rfl, hto, hfrom⟩ := mem_externalEntries.1 hy
      rw [← mutual_iff_mem hm hmem] at hto hfrom
      exact hentry.only e he hto hfrom
    obtain ⟨y, hy⟩ := List.exists_mem_of_ne_nil _ hempty
    exact eq_singleton (OrderedSet.nodup_eraseDups _) (hall y hy ▸ hy) hall

theorem resolveSingleBatchEntry_ok_iff (hnd : members.Nodup) :
    resolveSingleBatchEntry members edges batch name = .ok b ↔
      b ∈ members ∧ IsEntry batch edges b := by
  rw [resolveSingleBatchEntry_eq_ok]
  constructor
  · rintro ⟨-, hentries, hb⟩
    exact isEntry_of_loopEntries hm hentries hb
  · rintro ⟨hmem, hentry⟩
    exact ⟨⟨b, hmem, hentry.mem⟩, loopEntries_of_isEntry hm hnd hmem hentry, hentry.mem⟩

end Component

end Entry

/-! ## The components of a round -/

section Components

variable {nodes : List GraphNode} {edges : List GraphEdge} {members : List String}

theorem mem_computeSccs : members ∈ computeSccs nodes edges ↔
    ∃ x, membersOf (computeSccMembership ⟨nodes, edges⟩ edges) x = some members := by
  rw [computeSccs, List.mem_eraseDups, mem_membership_values]

theorem exists_computeSccs {x : String} (hx : x ∈ nodes.map GraphNode.id) :
    ∃ members ∈ computeSccs nodes edges, ∀ y, y ∈ members ↔ Mutual (targets edges) x y := by
  obtain ⟨node, hn, hid⟩ := List.mem_map.mp hx
  obtain ⟨members, hms⟩ := @exists_members ⟨nodes, edges⟩ x edges ⟨node, hn, hid⟩
  exact ⟨members, mem_computeSccs.2 ⟨x, hms⟩, fun _ => mem_members_iff hms⟩

/-- Another node that is mutually reachable has an edge into the class. -/
theorem exists_edge_into {a b : String} (h : Mutual (targets edges) a b) (hne : a ≠ b) :
    ∃ e ∈ edges, e.to = b ∧ Mutual (targets edges) b e.from := by
  obtain rfl | ⟨z, haz, hzb⟩ := ReflTransGen.cases_tail_iff _ _ _ |>.mp h.1
  · exact absurd rfl hne
  · obtain ⟨e, he, rfl, rfl⟩ := mem_targets.mp hzb
    exact ⟨e, he, rfl, h.2.trans haz, Reach.edge hzb⟩

/-- An edge stays inside a component of more than one node. -/
theorem exists_inner_edge {a b x : String} {rest : List String}
    (hm : ∀ y, y ∈ a :: b :: rest ↔ Mutual (targets edges) x y) (hnd : (a :: b :: rest).Nodup) :
    ∃ e ∈ edges, e.from ∈ a :: b :: rest ∧ e.to ∈ a :: b :: rest := by
  have hb : b ∈ a :: b :: rest := List.mem_cons_of_mem _ List.mem_cons_self
  have hne : a ≠ b := by
    rintro rfl
    exact (List.nodup_cons.mp hnd).1 List.mem_cons_self
  obtain ⟨e, he, rfl, hfrom⟩ :=
    exists_edge_into ((mutual_iff_mem hm List.mem_cons_self).mpr hb) hne
  exact ⟨e, he, (mutual_iff_mem hm hb).mp hfrom, hb⟩

/-- A component is cyclic if an edge stays inside it. -/
theorem mem_cyclicSccs : members ∈ cyclicSccs nodes edges ↔
    members ∈ computeSccs nodes edges ∧ ∃ e ∈ edges, e.from ∈ members ∧ e.to ∈ members := by
  rw [cyclicSccs, List.mem_filter, Bool.or_eq_true, decide_eq_true_eq]
  refine and_congr_right fun hms => ?_
  obtain ⟨x, hx⟩ := mem_computeSccs.1 hms
  have hm : ∀ y, y ∈ members ↔ Mutual (targets edges) x y := fun _ => mem_members_iff hx
  have hnd := nodup_members hx
  have hself : ∀ y, y ∈ selfLoopNodeIds edges ↔ ∃ e ∈ edges, e.from = e.to ∧ e.from = y := by
    simp [selfLoopNodeIds, and_assoc]
  match members, hm, hnd with
  | [], hm, _ => exact absurd ((hm x).mpr (Mutual.refl x)) List.not_mem_nil
  | [only], _, _ =>
    simp only [List.length_singleton, lt_irrefl, false_or, List.head?_cons, Option.any_some,
      decide_eq_true_eq, List.mem_singleton, hself]
    constructor
    · rintro ⟨e, he, hft, rfl⟩
      exact ⟨e, he, rfl, hft.symm⟩
    · rintro ⟨e, he, rfl, hto⟩
      exact ⟨e, he, hto.symm, rfl⟩
  | a :: b :: rest, hm, hnd => exact iff_of_true (.inl (by simp)) (exists_inner_edge hm hnd)

end Components

/-! ## Marking by ends -/

section Marking

variable {edges : List GraphEdge} {P Q : String → String → Prop}

open scoped Classical in
/-- The edges after the ones with ends that `P` relates are marked. -/
noncomputable def markWhere (P : String → String → Prop) (edges : List GraphEdge) :
    List GraphEdge :=
  edges.map fun e => { e with isBackEdge := e.isBackEdge || decide (P e.from e.to) }

theorem of_mem_markWhere {e : GraphEdge} (h : e ∈ markWhere P edges) :
    ∃ e' ∈ edges, e'.from = e.from ∧ e'.to = e.to ∧
      (e.isBackEdge → e'.isBackEdge ∨ P e.from e.to) := by
  obtain ⟨e', he', rfl⟩ := List.mem_map.mp h
  exact ⟨e', he', rfl, rfl, by simp⟩

theorem markWhere_congr (h : ∀ e ∈ unmarked edges, P e.from e.to ↔ Q e.from e.to) :
    markWhere P edges = markWhere Q edges := by
  refine List.map_congr_left fun e he => ?_
  cases hb : e.isBackEdge with
  | true => simp
  | false => simp [h e (List.mem_filter.mpr ⟨he, by simp [hb]⟩)]

theorem markWhere_markWhere :
    markWhere Q (markWhere P edges) = markWhere (fun a b => P a b ∨ Q a b) edges := by
  simp only [markWhere, List.map_map, Function.comp_def, Bool.or_assoc]
  refine List.map_congr_left fun e _ => ?_
  by_cases hP : P e.from e.to <;> by_cases hQ : Q e.from e.to <;> simp [hP, hQ]

theorem markReturns_eq {entryId : String} {members : List String} :
    markReturns entryId members edges = markWhere (fun a b => a ∈ members ∧ b = entryId) edges := by
  refine List.map_congr_left fun e _ => ?_
  by_cases h : e.to = entryId ∧ e.from ∈ members
  · simp [h]
  · have hn : ¬ (e.from ∈ members ∧ e.to = entryId) := fun k => h k.symm
    simp [h, hn]

@[simp] theorem targets_markWhere : targets (markWhere P edges) = targets edges := by
  funext a
  simp [targets, markWhere, List.filter_map, Function.comp_def]

open scoped Classical in
/-- What stays unmarked. -/
theorem unmarked_markWhere :
    unmarked (markWhere P edges) = (unmarked edges).filter fun e => ¬ P e.from e.to := by
  simp only [unmarked, markWhere, List.filter_map, List.filter_filter, Function.comp_def,
    Bool.not_or]
  have hsame : ∀ e ∈ edges.filter fun e => !e.isBackEdge && !decide (P e.from e.to),
      { e with isBackEdge := e.isBackEdge || decide (P e.from e.to) } = e := by
    intro e he
    obtain ⟨hb, hP⟩ := Bool.and_eq_true_iff.mp (List.mem_filter.mp he).2
    cases e
    simp_all
  rw [List.map_congr_left hsame, List.map_id']
  refine List.filter_congr fun e _ => ?_
  rw [Bool.and_comm, decide_not]

end Marking

/-! ## A round -/

section Round

variable (nodes : List GraphNode) (edges : List GraphEdge)

/-- Some loop is left. -/
def HasLoop (edges : List GraphEdge) : Prop :=
  ∃ e ∈ edges, Mutual (targets edges) e.to e.from

/-- Every loop has an entry. -/
def Enterable (batch : List String) (edges : List GraphEdge) : Prop :=
  ∀ e ∈ edges, Mutual (targets edges) e.to e.from →
    ∃ b, Mutual (targets edges) e.to b ∧ IsEntry batch edges b

/-- An edge from `a` to `b` returns to the entry of its loop. -/
def Returns (batch : List String) (edges : List GraphEdge) (a b : String) : Prop :=
  Mutual (targets edges) b a ∧ IsEntry batch edges b

/-- The batch nodes do not depend on the edges. -/
def batchIds : List String := batchNodeIds ⟨nodes, []⟩

variable {nodes edges} {e : GraphEdge} {members : List String}

/-- The returns of the components are marked if an entry is resolved for each. -/
theorem markComponents_ok {remaining edges' : List GraphEdge} {sccs : List (List String)} :
    markComponents nodes remaining sccs edges = .ok edges' ↔
      (∀ members ∈ sccs, ∃ b, entryOf nodes remaining members = .ok b) ∧
      edges' = markWhere (fun a b => ∃ members ∈ sccs, a ∈ members ∧
        entryOf nodes remaining members = .ok b) edges := by
  induction sccs generalizing edges with
  | nil => simp [markComponents, markWhere, eq_comm]
  | cons members sccs ih =>
    rw [markComponents, List.forall_mem_cons]
    cases hr : entryOf nodes remaining members with
    | error error => simp
    | ok entryId =>
      simp only [ih, markReturns_eq, markWhere_markWhere, Except.ok.injEq,
        List.mem_cons, exists_eq_or_imp, hr, eq_comm (a := entryId), exists_eq, true_and]

theorem spec_computeSccs (h : members ∈ computeSccs nodes edges) :
    members.Nodup ∧ ∃ x, ∀ y, y ∈ members ↔ Mutual (targets edges) x y := by
  obtain ⟨x, hx⟩ := mem_computeSccs.1 h
  exact ⟨nodup_members hx, x, fun _ => mem_members_iff hx⟩

theorem entryOf_ok {b : String} (h : members ∈ computeSccs nodes edges) :
    entryOf nodes edges members = .ok b ↔ b ∈ members ∧ IsEntry (batchIds nodes) edges b := by
  obtain ⟨hnd, x, hm⟩ := spec_computeSccs h
  exact resolveSingleBatchEntry_ok_iff hm hnd

section Ends

variable (hends : ∀ e ∈ edges, e.from ∈ nodes.map GraphNode.id)
include hends

/-- An edge on a loop lies in a cyclic component. -/
theorem exists_cyclicSccs (he : e ∈ edges) (hmut : Mutual (targets edges) e.to e.from) :
    ∃ members ∈ cyclicSccs nodes edges, e.from ∈ members ∧ e.to ∈ members := by
  obtain ⟨members, hms, hm⟩ := @exists_computeSccs nodes edges e.from (hends e he)
  have hfrom : e.from ∈ members := (hm _).mpr (Mutual.refl _)
  have hto : e.to ∈ members := (hm _).mpr hmut.symm
  exact ⟨members, mem_cyclicSccs.2 ⟨hms, e, he, hfrom, hto⟩, hfrom, hto⟩

theorem cyclicSccs_eq_nil : cyclicSccs nodes edges = [] ↔ ¬ HasLoop edges := by
  constructor
  · rintro hnil ⟨e, he, hmut⟩
    obtain ⟨members, hms, -⟩ := exists_cyclicSccs hends he hmut
    exact List.not_mem_nil (hnil ▸ hms)
  · intro hloop
    refine List.eq_nil_iff_forall_not_mem.mpr fun members hms => ?_
    obtain ⟨hms, e, he, hfrom, hto⟩ := mem_cyclicSccs.1 hms
    obtain ⟨-, x, hm⟩ := spec_computeSccs hms
    exact hloop ⟨e, he, (mutual_iff_mem hm hto).mpr hfrom⟩

theorem forall_entryOf_ok : (∀ members ∈ cyclicSccs nodes edges,
    ∃ b, entryOf nodes edges members = .ok b) ↔ Enterable (batchIds nodes) edges := by
  constructor
  · intro hall e he hmut
    obtain ⟨members, hms, -, hto⟩ := exists_cyclicSccs hends he hmut
    obtain ⟨b, hb⟩ := hall members hms
    have hms := (mem_cyclicSccs.1 hms).1
    obtain ⟨-, x, hm⟩ := spec_computeSccs hms
    obtain ⟨hmem, hentry⟩ := (entryOf_ok hms).mp hb
    exact ⟨b, (mutual_iff_mem hm hto).mpr hmem, hentry⟩
  · intro henter members hms
    obtain ⟨hms, e, he, hfrom, hto⟩ := mem_cyclicSccs.1 hms
    obtain ⟨-, x, hm⟩ := spec_computeSccs hms
    obtain ⟨b, hmut, hentry⟩ := henter e he ((mutual_iff_mem hm hto).mpr hfrom)
    exact ⟨b, (entryOf_ok hms).mpr ⟨(mutual_iff_mem hm hto).mp hmut, hentry⟩⟩

/-- The marked edges of a round are the returns. -/
theorem mem_component_iff_returns (he : e ∈ edges) :
    (∃ members ∈ cyclicSccs nodes edges, e.from ∈ members ∧
      entryOf nodes edges members = .ok e.to) ↔ Returns (batchIds nodes) edges e.from e.to := by
  constructor
  · rintro ⟨members, hms, hfrom, hok⟩
    have hms := (mem_cyclicSccs.1 hms).1
    obtain ⟨-, x, hm⟩ := spec_computeSccs hms
    obtain ⟨hto, hentry⟩ := (entryOf_ok hms).mp hok
    exact ⟨(mutual_iff_mem hm hto).mpr hfrom, hentry⟩
  · rintro ⟨hmut, hentry⟩
    obtain ⟨members, hms, hfrom, hto⟩ := exists_cyclicSccs hends he hmut
    exact ⟨members, hms, hfrom, (entryOf_ok (mem_cyclicSccs.1 hms).1).mpr ⟨hto, hentry⟩⟩

end Ends

theorem mem_of_mem_unmarked (he : e ∈ unmarked edges) : e ∈ edges :=
  (List.mem_filter.mp he).1

/-- **A round** marks the returns to the entries of the loops that are left, and it succeeds if each
of them has an entry. Neither depends on an order. -/
theorem markComponents_ok_iff {edges' : List GraphEdge}
    (hends : ∀ e ∈ edges, e.from ∈ nodes.map GraphNode.id) :
    markComponents nodes (unmarked edges) (cyclicSccs nodes (unmarked edges)) edges = .ok edges' ↔
      Enterable (batchIds nodes) (unmarked edges) ∧
        edges' = markWhere (Returns (batchIds nodes) (unmarked edges)) edges := by
  have hends' : ∀ e ∈ unmarked edges, e.from ∈ nodes.map GraphNode.id :=
    fun e he => hends e (mem_of_mem_unmarked he)
  rw [markComponents_ok, forall_entryOf_ok hends',
    markWhere_congr fun e he => mem_component_iff_returns hends' he]

section Turn

variable (hends : ∀ e ∈ edges, e.from ∈ nodes.map GraphNode.id) (fuel : ℕ)
include hends

theorem markRounds_done (hloop : ¬ HasLoop (unmarked edges)) :
    markRounds nodes (fuel + 1) edges = some (.ok edges) := by
  have hends' : ∀ e ∈ unmarked edges, e.from ∈ nodes.map GraphNode.id :=
    fun e he => hends e (mem_of_mem_unmarked he)
  simp only [markRounds, (cyclicSccs_eq_nil hends').mpr hloop, if_true, ite_self]

/-- While a loop is left, a round is run. -/
theorem markRounds_of_hasLoop (hloop : HasLoop (unmarked edges)) :
    markRounds nodes (fuel + 1) edges =
      match markComponents nodes (unmarked edges) (cyclicSccs nodes (unmarked edges)) edges with
      | .error error => some (.error error)
      | .ok edges => markRounds nodes fuel edges := by
  have hends' : ∀ e ∈ unmarked edges, e.from ∈ nodes.map GraphNode.id :=
    fun e he => hends e (mem_of_mem_unmarked he)
  have hne : unmarked edges ≠ [] := by
    obtain ⟨e, he, -⟩ := hloop
    exact List.ne_nil_of_mem he
  have hsccs : cyclicSccs nodes (unmarked edges) ≠ [] :=
    fun h => (cyclicSccs_eq_nil hends').mp h hloop
  simp only [markRounds, if_neg hne, if_neg hsccs]

theorem markRounds_mark (hloop : HasLoop (unmarked edges))
    (henter : Enterable (batchIds nodes) (unmarked edges)) :
    markRounds nodes (fuel + 1) edges =
      markRounds nodes fuel (markWhere (Returns (batchIds nodes) (unmarked edges)) edges) := by
  rw [markRounds_of_hasLoop hends fuel hloop, (markComponents_ok_iff hends).mpr ⟨henter, rfl⟩]

theorem markRounds_reject (hloop : HasLoop (unmarked edges))
    (henter : ¬ Enterable (batchIds nodes) (unmarked edges)) :
    ∃ error, markRounds nodes (fuel + 1) edges = some (.error error) := by
  rw [markRounds_of_hasLoop hends fuel hloop]
  cases hr : markComponents nodes (unmarked edges) (cyclicSccs nodes (unmarked edges)) edges with
  | ok edges' => exact absurd ((markComponents_ok_iff hends).mp hr).1 henter
  | error error => exact ⟨error, rfl⟩

end Turn

end Round

/-! ## The rounds end -/

section Termination

variable {nodes : List GraphNode} {edges : List GraphEdge} {P : String → String → Prop}

theorem from_mem_markWhere (hends : ∀ e ∈ edges, e.from ∈ nodes.map GraphNode.id) :
    ∀ e ∈ markWhere P edges, e.from ∈ nodes.map GraphNode.id := by
  intro e he
  obtain ⟨e', he', hfrom, -⟩ := of_mem_markWhere he
  exact hfrom ▸ hends e' he'

/-- A round that has a loop to mark leaves fewer edges. -/
theorem length_unmarked_lt {batch : List String} (hloop : HasLoop (unmarked edges))
    (henter : Enterable batch (unmarked edges)) :
    (unmarked (markWhere (Returns batch (unmarked edges)) edges)).length <
      (unmarked edges).length := by
  obtain ⟨e, he, hmut⟩ := hloop
  obtain ⟨b, hb, hentry⟩ := henter e he hmut
  -- some edge returns to the entry of the loop of `e`
  obtain ⟨r, hr, hreturns⟩ : ∃ r ∈ unmarked edges, Returns batch (unmarked edges) r.from r.to := by
    by_cases hto : e.to = b
    · exact ⟨e, he, hmut, hto ▸ hentry⟩
    · obtain ⟨r, hr, rfl, hfrom⟩ := exists_edge_into hb hto
      exact ⟨r, hr, hfrom, hentry⟩
  rw [unmarked_markWhere]
  refine lt_of_le_of_ne (List.length_filter_le _ _) fun heq => ?_
  have hall := List.length_filter_eq_length_iff.mp heq r hr
  simp only [decide_eq_true_eq] at hall
  exact hall hreturns

/-- There are at most as many rounds as edges. -/
theorem isSome_markRounds {fuel : ℕ} (hends : ∀ e ∈ edges, e.from ∈ nodes.map GraphNode.id)
    (hfuel : (unmarked edges).length < fuel) : (markRounds nodes fuel edges).isSome := by
  induction fuel generalizing edges with
  | zero => exact absurd hfuel (Nat.not_lt_zero _)
  | succ fuel ih =>
    by_cases hloop : HasLoop (unmarked edges)
    · by_cases henter : Enterable (batchIds nodes) (unmarked edges)
      · rw [markRounds_mark hends fuel hloop henter]
        have hlt := length_unmarked_lt hloop henter
        exact ih (from_mem_markWhere hends) (by omega)
      · obtain ⟨error, h⟩ := markRounds_reject hends fuel hloop henter
        rw [h, Option.isSome_some]
    · rw [markRounds_done hends fuel hloop, Option.isSome_some]

end Termination

/-! ## The order of nodes and edges -/

section Order

variable {nodes nodes' : List GraphNode} {edges edges' : List GraphEdge}
  {batch batch' : List String}

/-- Both are rejected, or the same edges are marked. -/
inductive SameOutcome : Option (Except ConversionError (List GraphEdge)) →
    Option (Except ConversionError (List GraphEdge)) → Prop
  | running : SameOutcome none none
  | rejected (error error' : ConversionError) :
      SameOutcome (some (.error error)) (some (.error error'))
  | marked {edges edges' : List GraphEdge} (h : edges.Perm edges') :
      SameOutcome (some (.ok edges)) (some (.ok edges'))

theorem mutual_targets_iff (h : ∀ e, e ∈ edges ↔ e ∈ edges') {a b : String} :
    Mutual (targets edges) a b ↔ Mutual (targets edges') a b := by
  have hsucc : (fun a b => b ∈ targets edges a) = fun a b => b ∈ targets edges' a := by
    funext a b
    simp only [mem_targets, h]
  simp only [Mutual, Reach, hsucc]

theorem hasLoop_iff (h : ∀ e, e ∈ edges ↔ e ∈ edges') : HasLoop edges ↔ HasLoop edges' := by
  simp only [HasLoop, h, mutual_targets_iff h]

theorem isEntry_iff (hb : ∀ b, b ∈ batch ↔ b ∈ batch') (h : ∀ e, e ∈ edges ↔ e ∈ edges')
    {b : String} : IsEntry batch edges b ↔ IsEntry batch' edges' b := by
  constructor
  · rintro ⟨hmem, honly, halone⟩
    simp only [h, hb, mutual_targets_iff h] at hmem honly halone
    exact ⟨hmem, honly, halone⟩
  · rintro ⟨hmem, honly, halone⟩
    simp only [← h, ← hb, ← mutual_targets_iff h] at hmem honly halone
    exact ⟨hmem, honly, halone⟩

theorem enterable_iff (hb : ∀ b, b ∈ batch ↔ b ∈ batch') (h : ∀ e, e ∈ edges ↔ e ∈ edges') :
    Enterable batch edges ↔ Enterable batch' edges' := by
  simp only [Enterable, h, mutual_targets_iff h, isEntry_iff hb h]

theorem perm_markWhere {P : String → String → Prop} (h : edges.Perm edges') :
    (markWhere P edges).Perm (markWhere P edges') := h.map _

theorem sameOutcome_markRounds (hnodes : nodes.Perm nodes') (hedges : edges.Perm edges')
    (hends : ∀ e ∈ edges, e.from ∈ nodes.map GraphNode.id) (fuel : ℕ) :
    SameOutcome (markRounds nodes fuel edges) (markRounds nodes' fuel edges') := by
  induction fuel generalizing edges edges' with
  | zero => exact .running
  | succ fuel ih =>
    have hends' : ∀ e ∈ edges', e.from ∈ nodes'.map GraphNode.id :=
      fun e he => (hnodes.map _).mem_iff.mp (hends e (hedges.mem_iff.mpr he))
    have hbatch : ∀ b, b ∈ batchIds nodes ↔ b ∈ batchIds nodes' :=
      fun b => ((hnodes.filter _).map _).mem_iff
    have hrest : ∀ e, e ∈ unmarked edges ↔ e ∈ unmarked edges' :=
      fun e => (hedges.filter _).mem_iff
    have hloops := hasLoop_iff hrest
    have henters := enterable_iff hbatch hrest
    by_cases hloop : HasLoop (unmarked edges)
    · have hloop' := hloops.mp hloop
      by_cases henter : Enterable (batchIds nodes) (unmarked edges)
      · have henter' := henters.mp henter
        rw [markRounds_mark hends fuel hloop henter, markRounds_mark hends' fuel hloop' henter']
        -- the returns of both rounds have the same ends
        have hsame : Returns (batchIds nodes') (unmarked edges') =
            Returns (batchIds nodes) (unmarked edges) := by
          funext a b
          simp only [Returns, mutual_targets_iff hrest, isEntry_iff hbatch hrest]
        rw [hsame]
        exact ih (perm_markWhere hedges) (from_mem_markWhere hends)
      · obtain ⟨error, h⟩ := markRounds_reject hends fuel hloop henter
        obtain ⟨error', h'⟩ := markRounds_reject hends' fuel hloop' fun k => henter (henters.mpr k)
        rw [h, h']
        exact .rejected error error'
    · rw [markRounds_done hends fuel hloop,
        markRounds_done hends' fuel fun k => hloop (hloops.mpr k)]
      exact .marked hedges

end Order

/-! ## What a conversion leaves -/

section Outcome

variable {nodes : List GraphNode} {edges edges' : List GraphEdge} {P : String → String → Prop}

/-- Each marked edge enters a batch node from inside its component. -/
def ReturnsInside (batch : List String) (edges : List GraphEdge) : Prop :=
  ∀ e ∈ edges, e.isBackEdge → e.to ∈ batch ∧ Mutual (targets edges) e.to e.from

theorem mutual_of_unmarked {a b : String} (h : Mutual (targets (unmarked edges)) a b) :
    Mutual (targets edges) a b := by
  have hsub : ∀ a b, b ∈ targets (unmarked edges) a → b ∈ targets edges a := by
    intro a b hb
    obtain ⟨e, he, hfrom, hto⟩ := mem_targets.mp hb
    exact mem_targets.mpr ⟨e, mem_of_mem_unmarked he, hfrom, hto⟩
  exact ⟨ReflTransGen.mono hsub _ _ h.1, ReflTransGen.mono hsub _ _ h.2⟩

theorem ReturnsInside.markWhere (h : ReturnsInside (batchIds nodes) edges) :
    ReturnsInside (batchIds nodes)
      (markWhere (Returns (batchIds nodes) (unmarked edges)) edges) := by
  intro e he hmark
  obtain ⟨e', he', hfrom, hto, hback⟩ := of_mem_markWhere he
  rw [targets_markWhere]
  rcases hback hmark with hold | ⟨hmut, hentry⟩
  · exact hfrom ▸ hto ▸ h e' he' hold
  · exact ⟨hentry.mem, mutual_of_unmarked hmut⟩

def clearMarks (edges : List GraphEdge) : List GraphEdge :=
  edges.map fun e => { e with isBackEdge := false }

theorem clearMarks_of_unmarked (h : ∀ e ∈ edges, e.isBackEdge = false) :
    clearMarks edges = edges := by
  refine (List.map_congr_left fun e he => ?_).trans (List.map_id edges)
  rw [← h e he]
  rfl

theorem targets_clearMarks : targets (clearMarks edges) = targets edges := by
  funext a
  simp [targets, clearMarks, List.filter_map, Function.comp_def]

theorem clearMarks_markWhere : clearMarks (markWhere P edges) = clearMarks edges := by
  simp [clearMarks, N8n.Engine.markWhere]

/-- The rounds change marks only, keep the marks inside, and end with no loop of unmarked edges. -/
theorem markRounds_ok {fuel : ℕ} (hends : ∀ e ∈ edges, e.from ∈ nodes.map GraphNode.id)
    (hinside : ReturnsInside (batchIds nodes) edges)
    (hok : markRounds nodes fuel edges = some (.ok edges')) :
    clearMarks edges' = clearMarks edges ∧ ¬ HasLoop (unmarked edges') ∧
      ReturnsInside (batchIds nodes) edges' := by
  induction fuel generalizing edges with
  | zero => cases hok
  | succ fuel ih =>
    by_cases hloop : HasLoop (unmarked edges)
    · by_cases henter : Enterable (batchIds nodes) (unmarked edges)
      · rw [markRounds_mark hends fuel hloop henter] at hok
        obtain ⟨hclear, hrest⟩ := ih (from_mem_markWhere hends) hinside.markWhere hok
        exact ⟨hclear.trans clearMarks_markWhere, hrest⟩
      · obtain ⟨error, h⟩ := markRounds_reject hends fuel hloop henter
        rw [h] at hok
        cases hok
    · rw [markRounds_done hends fuel hloop] at hok
      obtain rfl := Except.ok.inj (Option.some.inj hok)
      exact ⟨rfl, hloop, hinside⟩

/-- Without a loop there is no cycle. -/
theorem acyclic_of_not_hasLoop (h : ¬ HasLoop edges) (x : String) :
    ¬ TransGen (fun a b => b ∈ targets edges a) x x := by
  intro hx
  obtain ⟨y, hxy, hyx⟩ := TransGen.head'_iff.mp hx
  obtain ⟨e, he, rfl, rfl⟩ := mem_targets.mp hxy
  exact h ⟨e, he, hyx, Reach.edge hxy⟩

/-- The rule on forward cycles passes if no unmarked edge is on a loop. -/
theorem checkForwardAcyclic_ok (h : ¬ HasLoop (unmarked edges)) :
    checkForwardAcyclic ⟨nodes, edges⟩ = .ok () := by
  have hforward : (edges.filter fun edge => ¬ edge.isBackEdge) = unmarked edges := by
    simp [unmarked]
  simp only [checkForwardAcyclic, checks_ok_iff, rejectIf_ok, List.mem_eraseDups, hforward]
  intro members hms hcyc
  obtain ⟨x, hx⟩ := mem_membership_values.mp hms
  have hm : ∀ y, y ∈ members ↔ Mutual (targets (unmarked edges)) x y := fun _ => mem_members_iff hx
  have hnd := nodup_members hx
  obtain ⟨e, he, hfrom, hto⟩ : ∃ e ∈ unmarked edges, e.from ∈ members ∧ e.to ∈ members := by
    rcases members with _ | ⟨only, _ | ⟨b, rest⟩⟩
    · cases hcyc
    · obtain ⟨e, he, hft⟩ := List.any_eq_true.mp hcyc
      obtain ⟨hfrom, hto⟩ := of_decide_eq_true hft
      exact ⟨e, he, List.mem_singleton.mpr hfrom, List.mem_singleton.mpr hto⟩
    · exact exists_inner_edge hm hnd
  exact h ⟨e, he, (mutual_iff_mem hm hto).mpr hfrom⟩

theorem deriveLoops_inside (hends : ∀ e ∈ edges, e.to ∈ nodes.map GraphNode.id)
    (h : ReturnsInside (batchIds nodes) edges) {loop : WorkflowLoop}
    (hl : loop ∈ deriveLoops ⟨nodes, edges⟩) :
    loop.batchNodeId ∈ batchIds nodes ∧ ∀ e ∈ loop.backEdges, e.from ∈ loop.memberIds := by
  obtain ⟨b, ⟨r, hr, hback, rfl⟩, rfl⟩ := mem_deriveLoops.mp hl
  refine ⟨(h r hr hback).1, fun e he => ?_⟩
  obtain ⟨he, hback⟩ := List.mem_filter.mp he
  obtain ⟨hback, hto⟩ := of_decide_eq_true hback
  obtain ⟨node, hn, hid⟩ := List.mem_map.mp (hends r hr)
  obtain ⟨members, hms⟩ := @exists_members ⟨nodes, edges⟩ r.to edges ⟨node, hn, hid⟩
  simp only [loopAt, hms, Option.getD_some]
  rw [mem_members_iff hms, ← hto]
  exact (h e he hback).2

end Outcome

def loopNodes : List GraphNode :=
  [⟨"t", "Trigger", .trigger, none⟩, ⟨"b", "Loop", .batch, none⟩, ⟨"w", "Body", .v1Node, none⟩]

def loopEdges : List GraphEdge :=
  [⟨"t", "b", 0, 0, false⟩, ⟨"b", "w", 1, 0, false⟩, ⟨"w", "b", 0, 0, false⟩]

end N8n.Engine
