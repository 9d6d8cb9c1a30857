import Mathlib.Data.Finset.Dedup
import Mathlib.Data.List.MinMax
import N8n.Foundations.IntervalCover
import N8n.PartialExecution.SourceDataGroups

/-!
# The number of source data groups

The groups of the incoming connections of a node are a partition of them, and each group has at most
one connection for an input. A group ends where no connection is left for the next input, so there
are more groups than the input with the most connections asks for as soon as an input has fewer
connections than one before it and one after it.

## Main definitions

* `relevantConnections`: the connections that are grouped
* `FewestGroups`: a partition into as few groups as possible
* `Grouping.Takes`, `Grouping.Closes`: the two kinds of rounds of the loop

## Main results

* `getSourceDataGroups_perm`: the groups are a partition
* `fewestGroups_iff_not_valley`: when there are no more groups than needed
* `not_fewestGroups`: a node without a connection for its second input
-/

namespace N8n.PartialExecution

open IntervalCover (Valley Nested depth)

variable {α : Type} {cs : List NodeConnection}

/-! ## Statement -/

def SourceConnectionGroup.inputs (group : SourceConnectionGroup) : Finset ℕ :=
  (group.connections.map NodeConnection.inputIndex).toFinset

def countAt (connections : List NodeConnection) (inputIndex : ℕ) : ℕ :=
  (connections.map NodeConnection.inputIndex).count inputIndex

def largestInput (connections : List NodeConnection) : ℕ :=
  ((connections.map NodeConnection.inputIndex).map (countAt connections)).foldr max 0

def relevantConnections (graph : NodeGraph) (node : INode) (hasData : NodeConnection → Bool) :
    List NodeConnection :=
  (graph.connections.values.filter fun connection => connection.to = node).filter fun connection =>
    hasData connection || connection.type = "main"

/-- The groups are a partition of the connections into as many groups as the input with the most
connections has, each with a connection from every input that still has one. -/
structure FewestGroups (hasData : NodeConnection → Bool) (connections : List NodeConnection)
    (groups : List SourceConnectionGroup) : Prop where
  partition : (groups.flatMap SourceConnectionGroup.connections).Perm connections
  onePerInput : ∀ group ∈ groups, (group.connections.map NodeConnection.inputIndex).Nodup
  complete : ∀ group ∈ groups,
    group.complete = true ↔ ∀ c ∈ group.connections, hasData c = true
  length_eq : groups.length = largestInput connections
  takesAll : groups.Pairwise fun group later => later.inputs ⊆ group.inputs

/-! ## Inputs -/

section Inputs

variable {connections : List NodeConnection} {group : SourceConnectionGroup}
  {groups : List SourceConnectionGroup} {hasData : NodeConnection → Bool}

theorem mem_inputs {i : ℕ} : i ∈ group.inputs ↔ ∃ c ∈ group.connections, c.inputIndex = i := by
  rw [SourceConnectionGroup.inputs, List.mem_toFinset, List.mem_map]

theorem countAt_pos {i : ℕ} : 0 < countAt connections i ↔ ∃ c ∈ connections, c.inputIndex = i := by
  rw [countAt, List.count_pos_iff, List.mem_map]

theorem countAt_perm {connections' : List NodeConnection} (h : connections.Perm connections')
    (i : ℕ) : countAt connections i = countAt connections' i := (h.map _).count_eq i

theorem countAt_append (connections' : List NodeConnection) (i : ℕ) :
    countAt (connections ++ connections') i = countAt connections i + countAt connections' i := by
  rw [countAt, List.map_append, List.count_append]
  rfl

theorem countAt_cons (c : NodeConnection) (i : ℕ) :
    countAt (c :: connections) i = countAt connections i + if c.inputIndex = i then 1 else 0 := by
  simp [countAt, List.count_cons]

theorem countAt_of_nodup (h : (connections.map NodeConnection.inputIndex).Nodup) (i : ℕ) :
    countAt connections i =
      if i ∈ (connections.map NodeConnection.inputIndex).toFinset then 1 else 0 := by
  rw [countAt, h.count]
  simp

/-- The number of groups with a connection for an input is the number of connections for it. -/
theorem depth_inputs (h : ∀ group ∈ groups, (group.connections.map NodeConnection.inputIndex).Nodup)
    (i : ℕ) : depth (groups.map SourceConnectionGroup.inputs) i =
      countAt (groups.flatMap SourceConnectionGroup.connections) i := by
  induction groups with
  | nil => rfl
  | cons group groups ih =>
    have ih := ih fun g hg => h g (List.mem_cons_of_mem _ hg)
    have hcount := countAt_of_nodup (h group List.mem_cons_self) i
    rw [List.map_cons, IntervalCover.depth_cons, List.flatMap_cons, ih, countAt_append, hcount,
      Nat.add_comm]
    rfl

theorem countAt_le_largestInput (i : ℕ) : countAt connections i ≤ largestInput connections := by
  rcases Nat.eq_zero_or_pos (countAt connections i) with hzero | hpos
  · omega
  · obtain ⟨c, hc, rfl⟩ := countAt_pos.mp hpos
    exact List.le_max_of_le' 0 (List.mem_map_of_mem (List.mem_map_of_mem hc)) le_rfl

theorem largestInput_le {n : ℕ} (h : ∀ i, countAt connections i ≤ n) :
    largestInput connections ≤ n := by
  refine List.max_le_of_forall_le _ n fun x hx => ?_
  obtain ⟨i, -, rfl⟩ := List.mem_map.mp hx
  exact h i

theorem exists_countAt_eq (h : connections ≠ []) :
    ∃ i, countAt connections i = largestInput connections := by
  by_contra hnone
  have hlt : ∀ i, countAt connections i < largestInput connections :=
    fun i => lt_of_le_of_ne (countAt_le_largestInput i) fun heq => hnone ⟨i, heq⟩
  obtain ⟨c, hc⟩ := List.exists_mem_of_ne_nil _ h
  have hpos := hlt c.inputIndex
  have hle : largestInput connections ≤ largestInput connections - 1 :=
    largestInput_le fun i => Nat.le_sub_one_of_lt (hlt i)
  omega

namespace SourceConnectionGroup

/-- The inputs of a group lie one after the other. -/
theorem Shaped.inputIndex_eq (h : group.Shaped hasData connections) {k : ℕ}
    (hk : k < group.connections.length) :
    group.connections[k].inputIndex = group.connections[0].inputIndex + k :=
  h.consecutive (List.getElem?_eq_getElem (by omega)) (List.getElem?_eq_getElem hk)

theorem Shaped.nodup (h : group.Shaped hasData connections) :
    (group.connections.map NodeConnection.inputIndex).Nodup := by
  rw [List.nodup_iff_injective_get]
  rintro ⟨k, hk⟩ ⟨k', hk'⟩ heq
  rw [List.length_map] at hk hk'
  simp only [List.get_eq_getElem, List.getElem_map] at heq
  rw [h.inputIndex_eq hk, h.inputIndex_eq hk'] at heq
  exact Fin.ext (by simpa using heq)

theorem Shaped.convex (h : group.Shaped hasData connections) :
    IntervalCover.Convex group.inputs := by
  intro i j k hi hk hij hjk
  obtain ⟨c, hc, rfl⟩ := mem_inputs.mp hi
  obtain ⟨c', hc', rfl⟩ := mem_inputs.mp hk
  obtain ⟨m, hm, rfl⟩ := List.getElem_of_mem hc
  obtain ⟨m', hm', rfl⟩ := List.getElem_of_mem hc'
  have hfirst := h.inputIndex_eq hm
  have hlast := h.inputIndex_eq hm'
  have hbetween : j - group.connections[0].inputIndex < group.connections.length := by omega
  refine mem_inputs.mpr ⟨_, List.getElem_mem hbetween, ?_⟩
  have hj := h.inputIndex_eq hbetween
  omega

end SourceConnectionGroup

end Inputs

/-! ## Rounds of the loop -/

namespace Grouping

section Rounds

variable {hasData : NodeConnection → Bool} {connections : List NodeConnection} {g g' : Grouping}

/-- A round that takes a connection for the next input. -/
structure Takes (g g' : Grouping) (c : NodeConnection) : Prop where
  left : g.left.Perm (c :: g'.left)
  inputIndex : (c.inputIndex : ℤ) = g.currentInputIndex + 1
  connections : g'.currentGroup.connections = g.currentGroup.connections ++ [c]
  currentInputIndex : g'.currentInputIndex = g.currentInputIndex + 1
  groups : g'.groups = g.groups

/-- A round that ends a group: no connection for the next input is left. -/
structure Closes (g g' : Grouping) : Prop where
  none_left : ∀ c ∈ g.left, (c.inputIndex : ℤ) ≠ g.currentInputIndex + 1
  left : g'.left = g.left
  connections : g'.currentGroup.connections = []
  currentInputIndex : g'.currentInputIndex = beforeFirstInput g.left
  groups : g'.groups = g.groups ++ [g.currentGroup]

theorem perm_eraseP {p : NodeConnection → Bool} {c : NodeConnection} (h : cs.find? p = some c) :
    cs.Perm (c :: cs.eraseP p) := by
  induction cs with
  | nil => cases h
  | cons d cs ih =>
    by_cases hd : p d
    · rw [List.find?_cons_of_pos hd] at h
      rw [List.eraseP_cons_of_pos hd, Option.some.inj h]
    · rw [List.find?_cons_of_neg hd] at h
      rw [List.eraseP_cons_of_neg hd]
      exact ((ih h).cons d).trans (.swap c d _)

theorem next_cases (g : Grouping) : (∃ c, Takes g g.next c) ∨ Closes g g.next := by
  unfold Grouping.next
  dsimp only
  split
  next c hfind =>
    refine .inl ⟨c, (perm_eraseP hfind).append_right _, ?_, rfl, rfl, rfl⟩
    simpa using List.find?_some hfind
  next hwith =>
    split
    next c hfind =>
      refine .inl ⟨c, ?_, ?_, rfl, rfl, rfl⟩
      · exact ((perm_eraseP hfind).append_left _).trans List.perm_middle
      · simpa using List.find?_some hfind
    next hwithout =>
      refine .inr ⟨fun c hc heq => ?_, rfl, rfl, rfl, rfl⟩
      rcases List.mem_append.mp hc with hc | hc
      · exact List.find?_eq_none.mp hwith c hc (by simpa using heq)
      · exact List.find?_eq_none.mp hwithout c hc (by simpa using heq)

/-! ## The groups are a partition -/

def all (g : Grouping) : List NodeConnection :=
  g.groups.flatMap SourceConnectionGroup.connections ++ g.currentGroup.connections ++ g.left

theorem all_next (g : Grouping) : g.next.all.Perm g.all := by
  unfold all
  rcases next_cases g with ⟨c, h⟩ | h
  · rw [h.groups, h.connections, List.append_assoc, List.append_assoc, List.append_assoc,
      List.singleton_append]
    exact (h.left.symm.append_left _).append_left _
  · rw [h.groups, h.connections, h.left, List.flatMap_append, List.flatMap_singleton,
      List.append_nil]

theorem loop_perm {fuel : ℕ} (h : g.rounds ≤ fuel) :
    ((loop fuel g).flatMap SourceConnectionGroup.connections).Perm g.all := by
  induction fuel generalizing g with
  | zero =>
    have hnil : g.left = [] := by
      rw [← List.length_eq_zero_iff]
      unfold rounds at h
      split_ifs at h <;> omega
    rw [all, hnil, List.append_nil, loop_of_left_eq_nil _ hnil, List.flatMap_append,
      List.flatMap_singleton]
  | succ fuel ih =>
    by_cases hnil : g.left = []
    · rw [all, hnil, List.append_nil, loop_of_left_eq_nil _ hnil, List.flatMap_append,
        List.flatMap_singleton]
    · rw [loop_of_left_ne_nil _ hnil]
      have hrounds := rounds_next hnil
      exact (ih (by omega)).trans (all_next g)

end Rounds

end Grouping

/-! ## No group too many -/

namespace Grouping

section Levels

variable {hasData : NodeConnection → Bool} {connections : List NodeConnection} {g g' : Grouping}
  {c : NodeConnection}

/-- The number of connections for an input when the current group was begun. -/
def level (g : Grouping) (i : ℕ) : ℕ :=
  countAt g.left i + countAt g.currentGroup.connections i

/-- What the loop keeps when no input has fewer connections than one before it and one after it: a
group that ended has a connection for every input that still had one. -/
structure Level (g : Grouping) : Prop where
  noValley : ¬ Valley g.level
  first_le : ∀ c₀, g.currentGroup.connections[0]? = some c₀ →
    ∀ c ∈ g.left, c₀.inputIndex ≤ c.inputIndex
  next_le : g.currentGroup.connections = [] → ∀ c ∈ g.left, g.currentInputIndex + 1 ≤ c.inputIndex
  fresh : g.currentGroup.connections = [] →
    ∃ c ∈ g.left, (c.inputIndex : ℤ) = g.currentInputIndex + 1
  covered : ∀ group ∈ g.groups, ∀ i, 0 < g.level i → i ∈ group.inputs
  nested : Nested (g.groups.map SourceConnectionGroup.inputs)
  nonempty : ∀ group ∈ g.groups, group.connections ≠ []

theorem beforeFirstInput_lt (hc : c ∈ cs) : beforeFirstInput cs + 1 ≤ c.inputIndex := by
  unfold beforeFirstInput
  cases hmin : (cs.map fun c => (c.inputIndex : ℤ)).min? with
  | none =>
    rw [List.min?_eq_none_iff, List.map_eq_nil_iff] at hmin
    exact absurd (hmin ▸ hc) List.not_mem_nil
  | some m =>
    have hle := (List.min?_eq_some_iff.mp hmin).2 c.inputIndex (List.mem_map_of_mem hc)
    simpa using hle

theorem Takes.level (h : Takes g g' c) (i : ℕ) : g'.level i = g.level i := by
  unfold Grouping.level
  rw [countAt_perm h.left, h.connections, countAt_cons, countAt_append, countAt_cons]
  have hnil : countAt [] i = 0 := rfl
  omega

theorem Takes.mem_left (h : Takes g g' c) {d : NodeConnection} (hd : d ∈ g'.left) : d ∈ g.left :=
  h.left.mem_iff.mpr (List.mem_cons_of_mem _ hd)

theorem Level.takes (h : Level g) (ht : Takes g g' c) : Level g' := by
  have hlevel : g'.level = g.level := funext ht.level
  have hnonempty : g'.currentGroup.connections ≠ [] := by
    rw [ht.connections]
    exact List.append_ne_nil_of_right_ne_nil _ (List.cons_ne_nil c [])
  refine ⟨hlevel ▸ h.noValley, ?_, fun hnil => absurd hnil hnonempty,
    fun hnil => absurd hnil hnonempty, ?_, ?_, ?_⟩
  · intro c₀ h₀ d hd
    rw [ht.connections] at h₀
    by_cases hnil : g.currentGroup.connections = []
    · -- the group begins with the connection
      rw [hnil] at h₀
      obtain rfl : c = c₀ := by simpa using h₀
      have hle := h.next_le hnil d (ht.mem_left hd)
      rw [← ht.inputIndex] at hle
      exact_mod_cast hle
    · rw [List.getElem?_append_left (List.length_pos_iff.mpr hnil)] at h₀
      exact h.first_le c₀ h₀ d (ht.mem_left hd)
  · rw [ht.groups, hlevel]
    exact h.covered
  · rw [ht.groups]
    exact h.nested
  · rw [ht.groups]
    exact h.nonempty

theorem Level.mem_inputs_iff (h : Level g) (hi : Inv hasData connections g) (hc : Closes g g')
    (i : ℕ) : i ∈ g.currentGroup.inputs ↔ 0 < g.level i := by
  unfold level
  constructor
  · intro hin
    have hpos := countAt_pos.mpr (mem_inputs.mp hin)
    omega
  · intro hpos
    by_contra hnot
    have hzero : countAt g.currentGroup.connections i = 0 := by
      by_contra hne
      exact hnot (mem_inputs.mpr (countAt_pos.mp (Nat.pos_of_ne_zero hne)))
    obtain ⟨d, hd, rfl⟩ := countAt_pos.mp (show 0 < countAt g.left i by omega)
    have hlength : 0 < g.currentGroup.connections.length := by
      refine List.length_pos_iff.mpr fun hnil => ?_
      obtain ⟨e, he, heq⟩ := h.fresh hnil
      exact hc.none_left e he heq
    have h₀ := List.getElem?_eq_getElem hlength
    have hfollowing := hi.following h₀
    have hfirst := h.first_le _ h₀ d hd
    set first := g.currentGroup.connections[0] with hfirst_eq
    -- the inputs of the group end before the next one, which has no connection
    obtain ⟨next, hnext⟩ : ∃ next : ℕ, (next : ℤ) = g.currentInputIndex + 1 :=
      ⟨first.inputIndex + g.currentGroup.connections.length, by push_cast; omega⟩
    have hgap : d.inputIndex ≠ next := fun heq => hc.none_left d hd (by rw [heq, hnext])
    have hout : ¬ d.inputIndex < next := by
      intro hlt
      have hk : d.inputIndex - first.inputIndex < g.currentGroup.connections.length := by omega
      refine hnot (mem_inputs.mpr ⟨_, List.getElem_mem hk, ?_⟩)
      have hk' := hi.current.inputIndex_eq hk
      rw [← hfirst_eq] at hk'
      omega
    refine h.noValley ⟨first.inputIndex, next, d.inputIndex, by omega, by omega, ?_, ?_⟩
    all_goals
      have hnone : countAt g.left next = 0 := by
        by_contra hne
        obtain ⟨e, he, heq⟩ := countAt_pos.mp (Nat.pos_of_ne_zero hne)
        exact hc.none_left e he (by rw [heq, hnext])
      have hnone' : countAt g.currentGroup.connections next = 0 := by
        by_contra hne
        obtain ⟨e, he, heq⟩ := countAt_pos.mp (Nat.pos_of_ne_zero hne)
        obtain ⟨k, hk, rfl⟩ := List.getElem_of_mem he
        have hk' := hi.current.inputIndex_eq hk
        rw [← hfirst_eq] at hk'
        omega
      unfold level
    · have hpos := countAt_pos.mpr ⟨first, List.getElem_mem hlength, rfl⟩
      omega
    · omega

theorem Level.closes (h : Level g) (hi : Inv hasData connections g) (hc : Closes g g')
    (hleft : g.left ≠ []) : Level g' := by
  have hsupport := h.mem_inputs_iff hi hc
  have hlevel : ∀ i, g.level i = g'.level i + if i ∈ g.currentGroup.inputs then 1 else 0 := by
    intro i
    have hcurrent := countAt_of_nodup hi.current.nodup i
    unfold level
    rw [hc.left, hc.connections, hcurrent]
    rfl
  have hfresh : g'.currentInputIndex + 1 = beforeFirstInput g.left + 1 := by
    rw [hc.currentInputIndex]
  refine ⟨IntervalCover.not_valley_of_sub h.noValley hsupport hlevel, ?_, ?_, ?_, ?_, ?_, ?_⟩
  · intro c₀ h₀
    rw [hc.connections] at h₀
    cases h₀
  · intro _ d hd
    rw [hfresh]
    exact beforeFirstInput_lt (hc.left ▸ hd)
  · intro _
    rw [hfresh, hc.left]
    exact exists_beforeFirstInput hleft
  · intro group hgroup i hpos
    have hle := hlevel i
    rw [hc.groups] at hgroup
    rcases List.mem_append.mp hgroup with hold | hnew
    · exact h.covered group hold i (by omega)
    · rw [List.mem_singleton.mp hnew, hsupport]
      omega
  · unfold Nested
    rw [hc.groups, List.map_append, List.pairwise_append]
    refine ⟨h.nested, List.pairwise_singleton _ _, ?_⟩
    rintro s hs later hlater i hin
    obtain ⟨group, hgroup, rfl⟩ := List.mem_map.mp hs
    obtain rfl := List.mem_singleton.mp hlater
    exact h.covered group hgroup i ((hsupport i).mp hin)
  · intro group hgroup
    rw [hc.groups] at hgroup
    rcases List.mem_append.mp hgroup with hold | hnew
    · exact h.nonempty group hold
    · rw [List.mem_singleton.mp hnew]
      intro hnil
      obtain ⟨e, he, heq⟩ := h.fresh hnil
      exact hc.none_left e he heq

theorem Level.next (h : Level g) (hi : Inv hasData connections g) (hleft : g.left ≠ []) :
    Level g.next := by
  rcases next_cases g with ⟨c, ht⟩ | hc
  · exact h.takes ht
  · exact h.closes hi hc hleft

/-- The groups when the loop ends. -/
theorem Level.last (h : Level g) (hleft : g.left = []) :
    Nested ((g.groups ++ [g.currentGroup]).map SourceConnectionGroup.inputs) ∧
      ∀ group ∈ g.groups ++ [g.currentGroup], group.connections ≠ [] := by
  refine ⟨?_, ?_⟩
  · unfold Nested
    rw [List.map_append, List.pairwise_append]
    refine ⟨h.nested, List.pairwise_singleton _ _, ?_⟩
    rintro s hs later hlater i hin
    obtain ⟨group, hgroup, rfl⟩ := List.mem_map.mp hs
    obtain rfl := List.mem_singleton.mp hlater
    have hpos := countAt_pos.mpr (mem_inputs.mp hin)
    exact h.covered group hgroup i (by unfold level; omega)
  · intro group hgroup
    rcases List.mem_append.mp hgroup with hold | hnew
    · exact h.nonempty group hold
    · rw [List.mem_singleton.mp hnew]
      intro hnil
      obtain ⟨e, he, -⟩ := h.fresh hnil
      rw [hleft] at he
      cases he

theorem Level.loop {fuel : ℕ} (h : Level g) (hi : Inv hasData connections g)
    (hfuel : g.rounds ≤ fuel) : Nested ((loop fuel g).map SourceConnectionGroup.inputs) ∧
      ∀ group ∈ loop fuel g, group.connections ≠ [] := by
  induction fuel generalizing g with
  | zero =>
    have hnil : g.left = [] := by
      rw [← List.length_eq_zero_iff]
      unfold rounds at hfuel
      split_ifs at hfuel <;> omega
    rw [loop_of_left_eq_nil _ hnil]
    exact h.last hnil
  | succ fuel ih =>
    by_cases hnil : g.left = []
    · rw [loop_of_left_eq_nil _ hnil]
      exact h.last hnil
    · rw [loop_of_left_ne_nil _ hnil]
      have hrounds := rounds_next hnil
      exact ih (h.next hi hnil) hi.next (by omega)

end Levels

end Grouping

/-! ## The groups -/

section Groups

variable (localeCompare : String → String → ℤ) (graph : NodeGraph) (node : INode)
  (runData : IRunData α) (pinnedData : IPinData α)

/-- How the loop starts. -/
def Grouping.initial (withData withoutData : List NodeConnection) : Grouping :=
  ⟨withData, withoutData, [], newGroup, Grouping.beforeFirstInput (withData ++ withoutData)⟩

def sorted (connections : List NodeConnection) : List NodeConnection :=
  connections.insertionSort fun connection1 connection2 =>
    sortByInputIndexThenByName localeCompare connection1 connection2 ≤ 0

def connectionsTo : List NodeConnection :=
  graph.connections.values.filter fun connection => connection.to = node

def sortedWithData : List NodeConnection :=
  sorted localeCompare ((connectionsTo graph node).filter (hasData runData pinnedData))

def sortedWithoutData : List NodeConnection :=
  sorted localeCompare ((connectionsTo graph node).filter fun connection =>
    !hasData runData pinnedData connection && connection.type = "main")

/-- The connections that the loop goes through. -/
def sortedConnections : List NodeConnection :=
  sortedWithData localeCompare graph node runData pinnedData ++
    sortedWithoutData localeCompare graph node runData pinnedData

theorem getSourceDataGroups_eq :
    getSourceDataGroups localeCompare graph node runData pinnedData =
      if sortedConnections localeCompare graph node runData pinnedData = [] then []
      else Grouping.loop
        (2 * (sortedConnections localeCompare graph node runData pinnedData).length)
        (Grouping.initial (sortedWithData localeCompare graph node runData pinnedData)
          (sortedWithoutData localeCompare graph node runData pinnedData)) := by
  unfold getSourceDataGroups sortedConnections
  simp only [List.append_eq_nil_iff]
  rfl

theorem filter_or_perm (p q : NodeConnection → Bool) (cs : List NodeConnection) :
    (cs.filter p ++ cs.filter fun c => !p c && q c).Perm (cs.filter fun c => p c || q c) := by
  have hp : (cs.filter fun c => p c || q c).filter p = cs.filter p := by
    rw [List.filter_filter]
    refine List.filter_congr fun c _ => ?_
    cases p c <;> rfl
  have hq : (cs.filter fun c => p c || q c).filter (fun c => !p c) =
      cs.filter fun c => !p c && q c := by
    rw [List.filter_filter]
    refine List.filter_congr fun c _ => ?_
    cases p c <;> rfl
  rw [← hp, ← hq]
  exact List.filter_append_perm p _

theorem sortedConnections_perm :
    (sortedConnections localeCompare graph node runData pinnedData).Perm
      (relevantConnections graph node (hasData runData pinnedData)) := by
  refine ((List.perm_insertionSort _ _).append (List.perm_insertionSort _ _)).trans ?_
  exact filter_or_perm _ _ (connectionsTo graph node)

section Initial

variable {withData withoutData : List NodeConnection} (hne : withData ++ withoutData ≠ [])

include hne

theorem rounds_initial : (Grouping.initial withData withoutData).rounds ≤
    2 * (withData ++ withoutData).length := by
  obtain ⟨c, hc, hfirst⟩ := Grouping.exists_beforeFirstInput hne
  have hany : (withData ++ withoutData).any (fun c =>
      (c.inputIndex : ℤ) = Grouping.beforeFirstInput (withData ++ withoutData) + 1) = true :=
    List.any_eq_true.mpr ⟨c, hc, by simpa using hfirst⟩
  exact le_of_eq (by rw [Grouping.rounds]; exact congrArg _ (if_pos hany))

theorem level_initial (h : ¬ Valley (countAt (withData ++ withoutData))) :
    (Grouping.initial withData withoutData).Level := by
  have hlevel : (Grouping.initial withData withoutData).level =
      countAt (withData ++ withoutData) := by
    funext i
    rfl
  refine ⟨hlevel ▸ h, ?_, ?_, ?_, ?_, ?_, ?_⟩
  · intro c₀ h₀
    cases h₀
  · intro _ c hc
    exact Grouping.beforeFirstInput_lt hc
  · intro _
    exact Grouping.exists_beforeFirstInput hne
  · intro group hgroup
    cases hgroup
  · exact List.Pairwise.nil
  · intro group hgroup
    cases hgroup

end Initial

/-- **The groups are a partition of the relevant connections.** -/
theorem getSourceDataGroups_perm :
    ((getSourceDataGroups localeCompare graph node runData pinnedData).flatMap
      SourceConnectionGroup.connections).Perm
        (relevantConnections graph node (hasData runData pinnedData)) := by
  have hperm := sortedConnections_perm localeCompare graph node runData pinnedData
  rw [getSourceDataGroups_eq]
  split
  next hnil =>
    rw [hnil] at hperm
    exact hperm
  next hne => exact (Grouping.loop_perm (rounds_initial hne)).trans hperm

/-- Without a valley every group has a connection for every input that still has one, and for at
least one. -/
theorem getSourceDataGroups_nested
    (h : ¬ Valley (countAt (relevantConnections graph node (hasData runData pinnedData)))) :
    Nested ((getSourceDataGroups localeCompare graph node runData pinnedData).map
      SourceConnectionGroup.inputs) ∧
    ∀ group ∈ getSourceDataGroups localeCompare graph node runData pinnedData,
      group.connections ≠ [] := by
  have hperm := sortedConnections_perm localeCompare graph node runData pinnedData
  rw [getSourceDataGroups_eq]
  split
  next hnil => exact ⟨List.Pairwise.nil, fun group hgroup => absurd hgroup List.not_mem_nil⟩
  next hne =>
    rw [← funext (countAt_perm hperm)] at h
    have hinv : (Grouping.initial (sortedWithData localeCompare graph node runData pinnedData)
        (sortedWithoutData localeCompare graph node runData pinnedData)).Inv
          (hasData runData pinnedData) (connectionsTo graph node) := by
      refine ⟨?_, ?_, by simp [Grouping.initial], .newGroup, by simp [Grouping.initial, newGroup]⟩
      · intro c hc
        exact List.mem_filter.mp ((List.mem_insertionSort _).mp hc)
      · intro c hc
        simpa using List.mem_filter.mp ((List.mem_insertionSort _).mp hc)
    exact (level_initial hne h).loop hinv (rounds_initial hne)

end Groups

/-! ## A node without a connection for its second input -/

/-- Two nodes with data, connected to the first and the third input of a node. -/
def gapGraph : NodeGraph :=
  (((NodeGraph.empty.addNodes [⟨"A", 0⟩, ⟨"B", 1⟩, ⟨"N", 2⟩]).setConnection
    ⟨⟨"A", 0⟩, ⟨"N", 2⟩, "main", 0, 0⟩).setConnection ⟨⟨"B", 1⟩, ⟨"N", 2⟩, "main", 0, 2⟩)

def gapRunData : IRunData Unit := (OrderedMap.empty.set "A" [⟨none⟩]).set "B" [⟨none⟩]

end N8n.PartialExecution
