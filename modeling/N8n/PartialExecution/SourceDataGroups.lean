import Mathlib.Data.List.Sort
import N8n.PartialExecution.GraphEditing

/-!
# Source data groups

The incoming connections of a node, sorted into groups with one connection for each input from the
first one on. A node is run once for each group all of whose sources have data.

## Main definitions

* `getIncomingDataFromAnyRun`: the data that a source has for a connection
* `getSourceDataGroups`: the groups
* `SourceConnectionGroup.Shaped`: what a group looks like

## Main results

* `getSourceDataGroups_shaped`: the inputs of a group are consecutive, and it is complete when all
  of its sources have data
* `Grouping.loop_succ`: the loop ends
-/

namespace N8n.PartialExecution

variable {α : Type} {group : SourceConnectionGroup} {c : NodeConnection}

/-! ## Run data and pinned data -/

/-- One run of a node: its outputs for each type of connection, where an output may be `null`. -/
structure ITaskData (α : Type) where
  data : Option (OrderedMap String (List (Option (List α))))

abbrev IRunData (α : Type) := OrderedMap String (List (ITaskData α))

abbrev IPinData (α : Type) := OrderedMap String (List α)

section Incoming

variable (runData : IRunData α) (nodeName : String)

def getIncomingData (runIndex : ℕ) (connectionType : String) (outputIndex : ℕ) :
    Option (List α) := do
  let runs ← runData.get? nodeName
  let run ← runs[runIndex]?
  let data ← run.data
  let outputs ← data.get? connectionType
  outputs[outputIndex]?.join

/-- Items, and the run that they are from. -/
structure IncomingData (α : Type) where
  data : List α
  runIndex : ℕ

def getIncomingDataFromAnyRun (connectionType : String) (outputIndex : ℕ) :
    Option (IncomingData α) :=
  let maxRunIndexes := ((runData.get? nodeName).getD []).length
  (List.range maxRunIndexes).findSome? fun runIndex =>
    match getIncomingData runData nodeName runIndex connectionType outputIndex with
    | some data => if data ≠ [] then some ⟨data, runIndex⟩ else none
    | none => none

end Incoming

/-! ## Grouping -/

structure SourceConnectionGroup where
  /-- All connections have data. -/
  complete : Bool
  connections : List NodeConnection

def newGroup : SourceConnectionGroup := ⟨true, []⟩

/-- The order in which connections are taken, given how names compare. -/
def sortByInputIndexThenByName (localeCompare : String → String → ℤ)
    (connection1 connection2 : NodeConnection) : ℤ :=
  if connection1.inputIndex = connection2.inputIndex then
    localeCompare connection1.from.name connection2.from.name
  else connection1.inputIndex - connection2.inputIndex

/-- What the loop over the connections keeps. -/
structure Grouping where
  sortedConnectionsWithData : List NodeConnection
  sortedConnectionsWithoutData : List NodeConnection
  groups : List SourceConnectionGroup
  currentGroup : SourceConnectionGroup
  currentInputIndex : ℤ

namespace Grouping

def beforeFirstInput (connections : List NodeConnection) : ℤ :=
  ((connections.map fun c => (c.inputIndex : ℤ)).min?).getD 0 - 1

/-- One round of the loop: take a connection for the next input, or close the group. -/
def next (g : Grouping) : Grouping :=
  let currentInputIndex := g.currentInputIndex + 1
  let atInput (c : NodeConnection) : Bool := (c.inputIndex : ℤ) = currentInputIndex
  match g.sortedConnectionsWithData.find? atInput with
  | some connection =>
    { g with
      sortedConnectionsWithData := g.sortedConnectionsWithData.eraseP atInput
      currentGroup := { g.currentGroup with
        connections := g.currentGroup.connections ++ [connection] }
      currentInputIndex }
  | none =>
    match g.sortedConnectionsWithoutData.find? atInput with
    | some connection =>
      { g with
        sortedConnectionsWithoutData := g.sortedConnectionsWithoutData.eraseP atInput
        currentGroup := ⟨false, g.currentGroup.connections ++ [connection]⟩
        currentInputIndex }
    | none =>
      { g with
        groups := g.groups ++ [g.currentGroup]
        currentGroup := newGroup
        currentInputIndex := beforeFirstInput
          (g.sortedConnectionsWithData ++ g.sortedConnectionsWithoutData) }

/-- The loop. `fuel` bounds its rounds. -/
def loop : ℕ → Grouping → List SourceConnectionGroup
  | 0, g => g.groups ++ [g.currentGroup]
  | fuel + 1, g =>
    if g.sortedConnectionsWithData = [] ∧ g.sortedConnectionsWithoutData = [] then
      g.groups ++ [g.currentGroup]
    else loop fuel g.next

end Grouping

section Groups

variable (localeCompare : String → String → ℤ) (graph : NodeGraph) (node : INode)
  (runData : IRunData α) (pinnedData : IPinData α)

def hasData (connection : NodeConnection) : Bool :=
  (runData.get? connection.from.name).isSome || (pinnedData.get? connection.from.name).isSome

def getSourceDataGroups : List SourceConnectionGroup :=
  let connections := graph.connections.values.filter fun connection => connection.to = node
  let sorted := List.insertionSort fun connection1 connection2 =>
    sortByInputIndexThenByName localeCompare connection1 connection2 ≤ 0
  let sortedConnectionsWithData := sorted (connections.filter (hasData runData pinnedData))
  let sortedConnectionsWithoutData := sorted (connections.filter fun connection =>
    !hasData runData pinnedData connection && connection.type = "main")
  if sortedConnectionsWithData = [] ∧ sortedConnectionsWithoutData = [] then []
  else
    Grouping.loop (2 * (sortedConnectionsWithData ++ sortedConnectionsWithoutData).length)
      ⟨sortedConnectionsWithData, sortedConnectionsWithoutData, [], newGroup,
        Grouping.beforeFirstInput (sortedConnectionsWithData ++ sortedConnectionsWithoutData)⟩

end Groups

/-! ## What a group looks like -/

/-- The inputs of the connections are consecutive, and a group is complete when all of its
connections have data. Only main connections are in a group without data. -/
structure SourceConnectionGroup.Shaped (hasData : NodeConnection → Bool)
    (connections : List NodeConnection) (group : SourceConnectionGroup) : Prop where
  mem : ∀ c ∈ group.connections, c ∈ connections
  consecutive : ∀ {k c₀ c}, group.connections[0]? = some c₀ → group.connections[k]? = some c →
    c.inputIndex = c₀.inputIndex + k
  complete : group.complete = true ↔ ∀ c ∈ group.connections, hasData c = true
  withoutData : ∀ c ∈ group.connections, hasData c = false → c.type = "main"

namespace SourceConnectionGroup

variable {hasData : NodeConnection → Bool} {connections : List NodeConnection}

theorem Shaped.newGroup : newGroup.Shaped hasData connections := by
  constructor <;> simp [PartialExecution.newGroup]

/-- A connection for the next input is added. -/
theorem Shaped.concat {complete : Bool} (h : group.Shaped hasData connections)
    (hc : c ∈ connections) (htype : hasData c = false → c.type = "main")
    (hcomplete : complete = (group.complete && hasData c))
    (hnext : ∀ {c₀}, group.connections[0]? = some c₀ →
      c.inputIndex = c₀.inputIndex + group.connections.length) :
    Shaped hasData connections ⟨complete, group.connections ++ [c]⟩ where
  mem c' hc' := by
    rcases List.mem_append.mp hc' with hold | hnew
    · exact h.mem c' hold
    · rwa [List.mem_singleton.mp hnew]
  consecutive {k c₀ c'} h₀ hk := by
    by_cases hempty : group.connections = []
    · simp only [hempty, List.nil_append] at h₀ hk
      obtain ⟨hlt, rfl⟩ := List.getElem?_eq_some_iff.mp hk
      obtain rfl : k = 0 := by simpa using hlt
      simp_all
    · have h₀ : group.connections[0]? = some c₀ := by
        rwa [List.getElem?_append_left (List.length_pos_iff.mpr hempty)] at h₀
      rcases lt_trichotomy k group.connections.length with hlt | rfl | hgt
      · rw [List.getElem?_append_left hlt] at hk
        exact h.consecutive h₀ hk
      · rw [List.getElem?_concat_length] at hk
        rw [← Option.some.inj hk]
        exact hnext h₀
      · rw [List.getElem?_eq_none (by rw [List.length_append, List.length_singleton]; exact hgt)] at hk
        cases hk
  complete := by
    rw [hcomplete, Bool.and_eq_true, h.complete]
    simp [or_imp, forall_and]
  withoutData c' hc' := by
    rcases List.mem_append.mp hc' with hold | hnew
    · exact h.withoutData c' hold
    · rwa [List.mem_singleton.mp hnew]

theorem Shaped.eq_of_inputIndex (h : group.Shaped hasData connections) {c c' : NodeConnection}
    (hc : c ∈ group.connections) (hc' : c' ∈ group.connections)
    (heq : c.inputIndex = c'.inputIndex) : c = c' := by
  obtain ⟨k, hk, hget⟩ := List.getElem_of_mem hc
  obtain ⟨k', hk', hget'⟩ := List.getElem_of_mem hc'
  have h₀ : group.connections[0]? = some group.connections[0] :=
    List.getElem?_eq_getElem (by omega)
  have hidx := h.consecutive h₀ (List.getElem?_eq_some_iff.mpr ⟨hk, hget⟩)
  have hidx' := h.consecutive h₀ (List.getElem?_eq_some_iff.mpr ⟨hk', hget'⟩)
  obtain rfl : k = k' := by omega
  rw [← hget, ← hget']

end SourceConnectionGroup

namespace Grouping

variable {hasData : NodeConnection → Bool} {connections : List NodeConnection} {g : Grouping}

/-- What the loop keeps: the connection that is taken next continues the current group. -/
structure Inv (hasData : NodeConnection → Bool) (connections : List NodeConnection)
    (g : Grouping) : Prop where
  withData : ∀ c ∈ g.sortedConnectionsWithData, c ∈ connections ∧ hasData c = true
  withoutData : ∀ c ∈ g.sortedConnectionsWithoutData,
    c ∈ connections ∧ hasData c = false ∧ c.type = "main"
  groups : ∀ group ∈ g.groups, group.Shaped hasData connections
  current : g.currentGroup.Shaped hasData connections
  following : ∀ {c₀}, g.currentGroup.connections[0]? = some c₀ →
    g.currentInputIndex + 1 = c₀.inputIndex + g.currentGroup.connections.length

/-- The group after a connection for the next input was taken. -/
theorem Inv.concat {complete : Bool} (h : Inv hasData connections g) (hc : c ∈ connections)
    (htype : hasData c = false → c.type = "main")
    (hcomplete : complete = (g.currentGroup.complete && hasData c))
    (hnext : (c.inputIndex : ℤ) = g.currentInputIndex + 1) :
    SourceConnectionGroup.Shaped hasData connections
      ⟨complete, g.currentGroup.connections ++ [c]⟩ := by
  refine h.current.concat hc htype hcomplete ?_
  intro c₀ h₀
  have := h.following h₀
  omega

theorem following_concat {cs : List NodeConnection} {index : ℤ}
    (hfollowing : ∀ {c₀}, cs[0]? = some c₀ → index + 1 = c₀.inputIndex + cs.length)
    (hnext : (c.inputIndex : ℤ) = index + 1) {c₀ : NodeConnection}
    (h₀ : (cs ++ [c])[0]? = some c₀) :
    index + 1 + 1 = c₀.inputIndex + (cs ++ [c]).length := by
  cases cs with
  | nil =>
    obtain rfl : c = c₀ := by simpa using h₀
    simp [hnext]
  | cons first rest =>
    have := @hfollowing c₀ (by simpa using h₀)
    rw [List.length_append, List.length_singleton]
    push_cast at this ⊢
    omega

theorem Inv.next (h : Inv hasData connections g) : Inv hasData connections g.next := by
  unfold Grouping.next
  dsimp only
  split
  · rename_i c hfind
    have hmem := List.mem_of_find?_eq_some hfind
    have hnext : (c.inputIndex : ℤ) = g.currentInputIndex + 1 := by
      simpa using List.find?_some hfind
    obtain ⟨hc, hdata⟩ := h.withData c hmem
    refine ⟨?_, h.withoutData, h.groups, h.concat hc (by simp [hdata]) (by simp [hdata]) hnext,
      following_concat h.following hnext⟩
    exact fun c' hc' => h.withData c' (List.mem_of_mem_eraseP hc')
  · split
    · rename_i c hfind
      have hmem := List.mem_of_find?_eq_some hfind
      have hnext : (c.inputIndex : ℤ) = g.currentInputIndex + 1 := by
        simpa using List.find?_some hfind
      obtain ⟨hc, hdata, htype⟩ := h.withoutData c hmem
      refine ⟨h.withData, ?_, h.groups, h.concat hc (fun _ => htype) (by simp [hdata]) hnext,
        following_concat h.following hnext⟩
      exact fun c' hc' => h.withoutData c' (List.mem_of_mem_eraseP hc')
    · refine ⟨h.withData, h.withoutData, ?_, .newGroup, by simp [newGroup]⟩
      intro group hgroup
      rcases List.mem_append.mp hgroup with hold | hnew
      · exact h.groups group hold
      · rw [List.mem_singleton.mp hnew]
        exact h.current

/-- The groups when the loop ends. -/
theorem Inv.last (h : Inv hasData connections g) (hgroup : group ∈ g.groups ++ [g.currentGroup]) :
    group.Shaped hasData connections := by
  rcases List.mem_append.mp hgroup with hold | hnew
  · exact h.groups group hold
  · rw [List.mem_singleton.mp hnew]
    exact h.current

theorem Inv.loop {fuel : ℕ} (h : Inv hasData connections g) (hgroup : group ∈ loop fuel g) :
    group.Shaped hasData connections := by
  induction fuel generalizing g with
  | zero => exact h.last hgroup
  | succ fuel ih =>
    rw [Grouping.loop] at hgroup
    split_ifs at hgroup
    · exact h.last hgroup
    · exact ih h.next hgroup

/-! ## The loop ends -/

def left (g : Grouping) : List NodeConnection :=
  g.sortedConnectionsWithData ++ g.sortedConnectionsWithoutData

/-- The rounds that are left: one for each connection, and one for each time a group is closed. -/
def rounds (g : Grouping) : ℕ :=
  2 * g.left.length +
    if g.left.any (fun c => (c.inputIndex : ℤ) = g.currentInputIndex + 1) then 0 else 1

theorem exists_beforeFirstInput {connections : List NodeConnection} (h : connections ≠ []) :
    ∃ c ∈ connections, (c.inputIndex : ℤ) = beforeFirstInput connections + 1 := by
  unfold beforeFirstInput
  cases hmin : (connections.map fun c => (c.inputIndex : ℤ)).min? with
  | none =>
    rw [List.min?_eq_none_iff, List.map_eq_nil_iff] at hmin
    exact absurd hmin h
  | some m =>
    obtain ⟨c, hc, heq⟩ := List.mem_map.mp (List.min?_mem hmin)
    exact ⟨c, hc, by simp [heq]⟩

/-- A round takes a connection, or closes a group so that the next round takes one. -/
theorem rounds_next (h : g.left ≠ []) : g.next.rounds < g.rounds := by
  have taken : ∀ g' : Grouping, g'.left.length + 1 = g.left.length → g'.rounds < g.rounds := by
    intro g' hlength
    unfold rounds
    split_ifs <;> omega
  unfold Grouping.next
  dsimp only
  split
  · rename_i c hfind
    apply taken
    have hmem := List.mem_of_find?_eq_some hfind
    have herase := List.length_eraseP_add_one hmem (List.find?_some hfind)
    simp only [left, List.length_append]
    omega
  · rename_i hwith
    split
    · rename_i c hfind
      apply taken
      have hmem := List.mem_of_find?_eq_some hfind
      have herase := List.length_eraseP_add_one hmem (List.find?_some hfind)
      simp only [left, List.length_append]
      omega
    · rename_i hwithout
      have hnone : g.left.any (fun c => (c.inputIndex : ℤ) = g.currentInputIndex + 1) = false := by
        rw [left, List.any_append, List.any_eq_false.mpr (List.find?_eq_none.mp hwith),
          List.any_eq_false.mpr (List.find?_eq_none.mp hwithout), Bool.false_or]
      obtain ⟨c, hc, hfirst⟩ := exists_beforeFirstInput h
      have hsome : g.left.any (fun c => (c.inputIndex : ℤ) = beforeFirstInput g.left + 1) = true :=
        List.any_eq_true.mpr ⟨c, hc, by simpa using hfirst⟩
      show 2 * g.left.length +
        (if g.left.any (fun c => (c.inputIndex : ℤ) = beforeFirstInput g.left + 1) then 0 else 1) <
          g.rounds
      rw [rounds, hnone, hsome]
      simp

theorem loop_of_left_eq_nil (fuel : ℕ) (h : g.left = []) :
    loop fuel g = g.groups ++ [g.currentGroup] := by
  cases fuel with
  | zero => rfl
  | succ fuel => exact if_pos (List.append_eq_nil_iff.mp h)

theorem loop_of_left_ne_nil (fuel : ℕ) (h : g.left ≠ []) :
    loop (fuel + 1) g = loop fuel g.next :=
  if_neg fun hnil => h (List.append_eq_nil_iff.mpr hnil)

/-- **The loop ends**: more rounds than are left change nothing. -/
theorem loop_succ {fuel : ℕ} (h : g.rounds ≤ fuel + 1) : loop (fuel + 1) g = loop fuel g := by
  induction fuel generalizing g with
  | zero =>
    have hnil : g.left = [] := by
      rw [← List.length_eq_zero_iff]
      unfold rounds at h
      split_ifs at h <;> omega
    rw [loop_of_left_eq_nil _ hnil, loop_of_left_eq_nil _ hnil]
  | succ fuel ih =>
    by_cases hnil : g.left = []
    · rw [loop_of_left_eq_nil _ hnil, loop_of_left_eq_nil _ hnil]
    · rw [loop_of_left_ne_nil _ hnil, loop_of_left_ne_nil _ hnil]
      apply ih
      have := rounds_next hnil
      omega

theorem loop_succ_one : ∃ g : Grouping, g.rounds = 2 ∧ loop 2 g = loop 1 g :=
  let n : INode := ⟨"n", 0⟩
  ⟨⟨[⟨n, n, "main", 0, 0⟩], [], [], newGroup, -1⟩, by decide, loop_succ (by decide)⟩

end Grouping

/-- **What the groups look like.** -/
theorem getSourceDataGroups_shaped {localeCompare : String → String → ℤ} {graph : NodeGraph}
    {node : INode} {runData : IRunData α} {pinnedData : IPinData α}
    (h : group ∈ getSourceDataGroups localeCompare graph node runData pinnedData) :
    group.Shaped (hasData runData pinnedData)
      (graph.connections.values.filter fun connection => connection.to = node) := by
  unfold getSourceDataGroups at h
  dsimp only at h
  split_ifs at h
  · cases h
  · refine Grouping.Inv.loop ⟨?_, ?_, by simp, .newGroup, by simp [newGroup]⟩ h
    · intro c hc
      rw [List.mem_insertionSort, List.mem_filter] at hc
      exact hc
    · intro c hc
      rw [List.mem_insertionSort, List.mem_filter] at hc
      simpa using hc

end N8n.PartialExecution
