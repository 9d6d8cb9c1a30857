import Mathlib.Data.List.Induction
import N8n.Workflows.Connections
import N8n.Workflows.NodeParameters

/-!
# Grouping the versions of a workflow

Of the saved versions of a workflow those are dropped that a later one makes redundant. A rule
compares a version with the next one that is kept, starting from the newest.

## Main definitions

* `DiffableWorkflow`: the versions
* `WorkflowChangeSet`: how two versions differ
* `mergeAdditiveChanges`: the rule under which a version only adds to an earlier one
* `groupWorkflows`: which versions are dropped and which are kept
* `Grouping`: a way to drop versions in favour of later ones that are kept
* `OnlyRedundant`: only redundant versions are dropped

## Main results

* `groupWorkflows_grouping`: whatever the rules are, a version is only dropped in favour of a later
  one that is kept
* `onlyRedundant_iff`: the later version has all that the dropped one had exactly when no object in
  the parameters of a version is taken for an array of another one
-/

namespace N8n.Workflows

open OrderedMap

/-- A node; the fields other than its id and its parameters are stored by name. -/
structure DiffableNode where
  id : String
  parameters : ParameterValue
  fields : OrderedMap String ParameterValue

structure IWorkflowGroup where
  id : String
  name : String
  description : Option String
  nodeIds : List String

/-- A version. No two nodes of a workflow that is saved have the same id. -/
structure DiffableWorkflow where
  nodes : List DiffableNode
  connections : IConnections
  createdAt : ℤ
  authors : Option String
  nodeGroups : Option (List IWorkflowGroup)
  nodup : (nodes.map DiffableNode.id).Nodup

/-! ## Nodes -/

def propsToCompare : List String :=
  ["name", "type", "typeVersion", "webhookId", "credentials", "parameters", "disabled", "notes",
    "notesInFlow", "onError", "continueOnFail", "retryOnFail", "maxTries", "waitBetweenTries",
    "alwaysOutputData", "executeOnce"]

def DiffableNode.get? (node : DiffableNode) (prop : String) : Option ParameterValue :=
  if prop = "parameters" then some node.parameters else node.fields.get? prop

/-- `isEqual` on a property that may be missing. -/
def isEqualOption : Option ParameterValue → Option ParameterValue → Bool
  | some a, some b => isEqual a b
  | none, none => true
  | _, _ => false

def compareNodes (base target : DiffableNode) : Bool :=
  propsToCompare.all fun prop => isEqualOption (base.get? prop) (target.get? prop)

inductive NodeDiffStatus
  | eq
  | modified
  | added
  | deleted
  deriving DecidableEq

structure NodeDiff where
  status : NodeDiffStatus
  node : DiffableNode

def nodesById (nodes : List DiffableNode) : OrderedMap String DiffableNode :=
  OrderedMap.empty.insertAll DiffableNode.id nodes

def baseNodeDiff (targetNodes : OrderedMap String DiffableNode) (node : DiffableNode) : NodeDiff :=
  match targetNodes.get? node.id with
  | none => ⟨.deleted, node⟩
  | some other => if compareNodes node other then ⟨.eq, node⟩ else ⟨.modified, node⟩

/-- First the nodes of the base, then those that are added. -/
def nodeDiffs (base target : List DiffableNode) : List NodeDiff :=
  let baseNodes := nodesById base
  let targetNodes := nodesById target
  let added := targetNodes.values.filter fun node => (baseNodes.get? node.id).isNone
  baseNodes.values.map (baseNodeDiff targetNodes) ++ added.map fun node => ⟨.added, node⟩

def compareWorkflowsNodes (base target : List DiffableNode) : OrderedMap String NodeDiff :=
  OrderedMap.empty.insertAll (fun d => d.node.id) (nodeDiffs base target)

/-! ## Connections -/

structure ConnectionEntry where
  sourceIndex : ℕ
  index : ℕ
  connection : IConnection

abbrev INodeConnectionsDiff := OrderedMap String (List ConnectionEntry)

structure ConnectionsDiff where
  added : OrderedMap String INodeConnectionsDiff
  removed : OrderedMap String INodeConnectionsDiff

/-- The connections by value, each occurrence with its index. A connection stands for its
serialization, which no other connection has. -/
def groupByValue (connections : List IConnection) :
    OrderedMap IConnection (List (ℕ × IConnection)) :=
  connections.zipIdx.foldl
    (fun byValue c =>
      byValue.set c.1 (((byValue.get? c.1).getD []) ++ [(c.2, c.1)])) OrderedMap.empty

/-- The occurrences in the first list beyond those that the second list has, too. -/
def surplus (connections others : List IConnection) (sourceIndex : ℕ) : List ConnectionEntry :=
  let kept := groupByValue others
  (groupByValue connections).entries.flatMap fun entry =>
    (entry.2.drop ((kept.get? entry.1).getD []).length).map fun value =>
      ⟨sourceIndex, value.1, value.2⟩

/-- Record entries under a node and an input. A name that every object inherits never becomes a
key of the record. -/
def recordEntries (diff : OrderedMap String INodeConnectionsDiff) (nodeName inputName : String)
    (entries : List ConnectionEntry) : OrderedMap String INodeConnectionsDiff :=
  if entries.isEmpty ∨ nodeName ∈ objectPrototypeNames then diff
  else
    let byInput := (diff.get? nodeName).getD OrderedMap.empty
    diff.set nodeName (byInput.set inputName ((byInput.get? inputName).getD [] ++ entries))

/-- The keys of one or the other record, those of the first one first. -/
def keysOfBoth {ν : Type} (prev next : OrderedMap String ν) : List String :=
  WorkflowExecute.objectKeys prev.keys ++
    (WorkflowExecute.objectKeys next.keys).filter fun name => name ∉ prev.keys

/-- The indices of a node's inputs that are compared, each with the two lists of connections. -/
def inputsOfBoth (prev next : IConnections) :
    List (String × String × ℕ × List IConnection × List IConnection) :=
  (keysOfBoth prev next).flatMap fun nodeName =>
    let prevNode := (prev.get? nodeName).getD OrderedMap.empty
    let nextNode := (next.get? nodeName).getD OrderedMap.empty
    (keysOfBoth prevNode nextNode).flatMap fun inputName =>
      let prevInput := (prevNode.get? inputName).getD []
      let nextInput := (nextNode.get? inputName).getD []
      (List.range (max prevInput.length nextInput.length)).map fun sourceIndex =>
        (nodeName, inputName, sourceIndex, connectionsAt prevInput sourceIndex,
          connectionsAt nextInput sourceIndex)

def compareConnections (prev next : IConnections) : ConnectionsDiff :=
  (inputsOfBoth prev next).foldl
    (fun diff (nodeName, inputName, sourceIndex, prevConnections, nextConnections) =>
      ⟨recordEntries diff.added nodeName inputName
          (surplus nextConnections prevConnections sourceIndex),
        recordEntries diff.removed nodeName inputName
          (surplus prevConnections nextConnections sourceIndex)⟩)
    ⟨OrderedMap.empty, OrderedMap.empty⟩

/-! ## Rules -/

/-- How two versions differ. For one and the same version the comparison is left out, with the
same result (`create_self`). -/
structure WorkflowChangeSet where
  nodes : OrderedMap String NodeDiff
  connections : ConnectionsDiff

def WorkflowChangeSet.create («from» «to» : DiffableWorkflow) : WorkflowChangeSet :=
  ⟨compareWorkflowsNodes «from».nodes «to».nodes, compareConnections «from».connections «to».connections⟩

structure DiffMetaData where
  workflowSizeScore : Option ℕ

/-- A rule for an earlier and a later version. -/
abbrev DiffRule :=
  DiffableWorkflow → DiffableWorkflow → WorkflowChangeSet → DiffMetaData → Bool

/-- No data is lost if the second node replaces the first one. -/
def nodeIsSuperset (prevNode nextNode : DiffableNode) : Bool :=
  let empty : ParameterValue := .object ⟨Fin.elim0, fun i => i.elim0⟩ Fin.elim0
  compareNodes { prevNode with parameters := empty } { nextNode with parameters := empty } &&
    parametersAreSuperset prevNode.parameters nextNode.parameters

/-- Groups and their members are only added. -/
def nodeGroupChangesAreAdditive (prev next : DiffableWorkflow) : Bool :=
  let nextGroupsById := OrderedMap.empty.insertAll IWorkflowGroup.id (next.nodeGroups.getD [])
  (prev.nodeGroups.getD []).all fun prevGroup =>
    match nextGroupsById.get? prevGroup.id with
    | none => false
    | some nextGroup =>
      nextGroup.name = prevGroup.name && nextGroup.description = prevGroup.description &&
        prevGroup.nodeIds.all fun id => nextGroup.nodeIds.contains id

/-- Whether a difference of the nodes is one that only adds. A node that is not deleted is always
found in the later version (`find?_of_compareWorkflowsNodes`). -/
def nodeChangeIsAdditive (next : DiffableWorkflow) (d : NodeDiff) : Bool :=
  match d.status with
  | .deleted => false
  | .added => true
  | .eq => (next.nodes.find? fun x => x.id = d.node.id).isSome
  | .modified => (next.nodes.find? fun x => x.id = d.node.id).elim false (nodeIsSuperset d.node)

def mergeAdditiveChanges : DiffRule := fun prev next diff _ =>
  diff.nodes.values.all (nodeChangeIsAdditive next) && diff.connections.removed.keys.isEmpty &&
    nodeGroupChangesAreAdditive prev next

/-- We want to avoid merging versions from different editing sessions. -/
def makeSkipTimeDifference (timeDiffMs : ℤ) : DiffRule := fun prev next _ _ =>
  timeDiffMs < (next.createdAt - prev.createdAt).natAbs

def skipDifferentUsers : DiffRule := fun prev next _ _ => next.authors ≠ prev.authors

/-! ## The loop over the versions -/

def determineNodeSize : ParameterValue → ℕ
  | .string s => if s = [] then 1 else s.length
  | .array items => ((List.finRange _).map fun i => determineNodeSize (items i)).foldl (· + ·) 1
  | .object _ value => ((List.finRange _).map fun i => determineNodeSize (value i)).foldl (· + ·) 1
  | _ => 1

def determineNodeParametersSize (workflow : DiffableWorkflow) : ℕ :=
  workflow.nodes.foldl (fun acc x => acc + determineNodeSize x.parameters) 0

/-- The latest and an average version give a somewhat accurate representation of the size. -/
def metaDataOf (workflows : List DiffableWorkflow) (workflowSizeScore : Bool) : DiffMetaData :=
  ⟨if workflowSizeScore then
    some (max ((workflows[workflows.length / 2]?).elim 0 determineNodeParametersSize)
      ((workflows[workflows.length - 1]?).elim 0 determineNodeParametersSize))
  else none⟩

section Loop

variable (rules skipRules : List DiffRule) (metaData : DiffMetaData)

/-- Whether the earlier of two versions that are compared is dropped. -/
def merges (prev next : DiffableWorkflow) : Bool :=
  let wcs := WorkflowChangeSet.create prev next
  !(skipRules.any fun shouldSkip => shouldSkip prev next wcs metaData) &&
    rules.any fun rule => rule prev next wcs metaData

/-- The loop from index `i` down to 1, on the versions that are dropped and those that remain. -/
def diffLoop : ℕ → List DiffableWorkflow × List DiffableWorkflow →
    List DiffableWorkflow × List DiffableWorkflow
  | 0, groups => groups
  | i + 1, (removed, remaining) =>
    match remaining[i]?, remaining[i + 1]? with
    | some prev, some next =>
      if merges rules skipRules metaData prev next then
        diffLoop i (removed ++ [prev], remaining.eraseIdx i)
      else diffLoop i (removed, remaining)
    | _, _ => diffLoop i (removed, remaining)

end Loop

/-- The versions that are dropped and those that remain. -/
def groupWorkflows (workflows : List DiffableWorkflow) (rules skipRules : List DiffRule)
    (workflowSizeScore : Bool) : List DiffableWorkflow × List DiffableWorkflow :=
  if workflows.length = 0 then ([], [])
  else if workflows.length = 1 then ([], workflows)
  else diffLoop rules skipRules (metaDataOf workflows workflowSizeScore) (workflows.length - 1)
    ([], workflows)

/-! ## The differences of two versions -/

section Nodes

variable {nodes : List DiffableNode} {node : DiffableNode} {id : String}

theorem nodesById_get? (hnd : (nodes.map DiffableNode.id).Nodup) :
    (nodesById nodes).get? id = some node ↔ node ∈ nodes ∧ node.id = id := by
  have hempty : OrderedMap.Keyed DiffableNode.id empty := OrderedMap.Keyed.empty
  have hkeyed := hempty.insertAll nodes
  constructor
  · intro hget
    have hmem := mem_values_insertAll (mem_values.mpr ⟨id, hget⟩)
    refine ⟨hmem.resolve_left ?_, hkeyed id node hget⟩
    simp [values, empty]
  · rintro ⟨hmem, rfl⟩
    obtain ⟨other, hother, hid⟩ := hempty.exists_mem_values_insertAll hmem
    have hnodes := (mem_values_insertAll hother).resolve_left
      (by simp [values, empty])
    -- ids are distinct, so the node that stays is this one
    obtain rfl := List.inj_on_of_nodup_map hnd hnodes hmem hid
    exact hkeyed.mem_values.mp hother

theorem mem_nodesById_values (hnd : (nodes.map DiffableNode.id).Nodup) :
    node ∈ (nodesById nodes).values ↔ node ∈ nodes := by
  rw [mem_values]
  constructor
  · rintro ⟨id, hget⟩
    exact ((nodesById_get? hnd).mp hget).1
  · intro hmem
    exact ⟨node.id, (nodesById_get? hnd).mpr ⟨hmem, rfl⟩⟩

/-- Looking through the list of nodes finds what the table has. -/
theorem find?_eq_nodesById (hnd : (nodes.map DiffableNode.id).Nodup) :
    (nodes.find? fun x => x.id = id) = (nodesById nodes).get? id := by
  ext node
  rw [nodesById_get? hnd]
  constructor
  · intro hfind
    exact ⟨List.mem_of_find?_eq_some hfind, by simpa using List.find?_some hfind⟩
  · rintro ⟨hmem, rfl⟩
    cases hfind : nodes.find? fun x => x.id = node.id with
    | none => simpa using List.find?_eq_none.mp hfind node hmem
    | some other =>
      have hid : other.id = node.id := by simpa using List.find?_some hfind
      rw [List.inj_on_of_nodup_map hnd (List.mem_of_find?_eq_some hfind) hmem hid]

end Nodes

section ChangeSet

variable {prev next : DiffableWorkflow} {node : DiffableNode} {metaData : DiffMetaData}
  {nodes : List DiffableNode}

@[simp] theorem baseNodeDiff_node {targetNodes : OrderedMap String DiffableNode} :
    (baseNodeDiff targetNodes node).node = node := by
  rw [baseNodeDiff]
  split
  · rfl
  · split <;> rfl

/-- Every node of the earlier version is compared. -/
theorem baseNodeDiff_mem (hnode : node ∈ prev.nodes) :
    baseNodeDiff (nodesById next.nodes) node ∈
      (WorkflowChangeSet.create prev next).nodes.values := by
  have hvalue := (mem_nodesById_values prev.nodup).mpr hnode
  have hempty : OrderedMap.Keyed (fun d : NodeDiff => d.node.id) empty :=
    OrderedMap.Keyed.empty
  have hmem : baseNodeDiff (nodesById next.nodes) node ∈ nodeDiffs prev.nodes next.nodes :=
    List.mem_append_left _ (List.mem_map_of_mem hvalue)
  obtain ⟨d, hd, hid⟩ := hempty.exists_mem_values_insertAll hmem
  have hdiffs := (mem_values_insertAll hd).resolve_left
    (by simp [values, empty])
  rcases List.mem_append.mp hdiffs with hbase | hadded
  · obtain ⟨other, hother, rfl⟩ := List.mem_map.mp hbase
    rw [mem_nodesById_values prev.nodup] at hother
    simp only [baseNodeDiff_node] at hid
    rw [← List.inj_on_of_nodup_map prev.nodup hother hnode hid]
    exact hd
  · obtain ⟨other, hother, rfl⟩ := List.mem_map.mp hadded
    -- a node that is added has an id that the base does not have
    have hnone := (List.mem_filter.mp hother).2
    simp only [baseNodeDiff_node] at hid
    rw [hid, (nodesById_get? prev.nodup).mpr ⟨hnode, rfl⟩] at hnone
    cases hnone

/-- What the rule asks of each node of the earlier version. -/
theorem exists_of_mergeAdditiveChanges
    (h : mergeAdditiveChanges prev next (.create prev next) metaData = true)
    (hnode : node ∈ prev.nodes) : ∃ other ∈ next.nodes, other.id = node.id ∧
      (isEqual node.parameters other.parameters = true ∨
        parametersAreSuperset node.parameters other.parameters = true) := by
  simp only [mergeAdditiveChanges, Bool.and_eq_true, List.all_eq_true] at h
  have hd := h.1.1 _ (baseNodeDiff_mem hnode)
  rw [baseNodeDiff] at hd
  cases hget : (nodesById next.nodes).get? node.id with
  | none => simp [hget, nodeChangeIsAdditive] at hd
  | some other =>
    obtain ⟨hother, hid⟩ := (nodesById_get? next.nodup).mp hget
    refine ⟨other, hother, hid, ?_⟩
    simp only [hget] at hd
    split at hd
    · rename_i heq
      -- an unchanged node has equal parameters, for they are among what is compared
      have := List.all_eq_true.mp heq "parameters" (by decide)
      exact .inl (by simpa [DiffableNode.get?, isEqualOption] using this)
    · simp only [nodeChangeIsAdditive, find?_eq_nodesById next.nodup, hget, Option.elim_some,
        nodeIsSuperset, Bool.and_eq_true] at hd
      exact .inr hd.2

@[simp] theorem compareNodes_self : compareNodes node node = true := by
  refine List.all_eq_true.mpr fun prop _ => ?_
  cases node.get? prop with
  | none => rfl
  | some value => exact isEqual_refl value

theorem nodesById_values (hnd : (nodes.map DiffableNode.id).Nodup) :
    (nodesById nodes).values = nodes := by
  rw [nodesById, values, entries_insertAll_of_fresh (by simp [keys,
    empty]) hnd]
  simp [empty, Function.comp_def]

theorem nodeDiffs_self (hnd : (nodes.map DiffableNode.id).Nodup) :
    nodeDiffs nodes nodes = nodes.map fun node => ⟨.eq, node⟩ := by
  have hget : ∀ node ∈ nodes, (nodesById nodes).get? node.id = some node :=
    fun node hnode => (nodesById_get? hnd).mpr ⟨hnode, rfl⟩
  rw [nodeDiffs, nodesById_values hnd]
  have hadded : nodes.filter (fun node => ((nodesById nodes).get? node.id).isNone) = [] := by
    refine List.filter_eq_nil_iff.mpr fun node hnode => ?_
    simp [hget node hnode]
  simp only [hadded, List.map_nil, List.append_nil]
  refine List.map_congr_left fun node hnode => ?_
  simp [baseNodeDiff, hget node hnode]

@[simp] theorem surplus_self (connections : List IConnection) (sourceIndex : ℕ) :
    surplus connections connections sourceIndex = [] := by
  refine List.flatMap_eq_nil_iff.mpr fun entry hentry => ?_
  simp [get?_eq_some.mpr hentry]

/-- Nothing was added to the connections or removed from them. -/
theorem compareConnections_self (connections : IConnections) :
    compareConnections connections connections = ⟨empty, empty⟩ := by
  have hsame : ∀ input ∈ inputsOfBoth connections connections, input.2.2.2.1 = input.2.2.2.2 := by
    intro input hinput
    simp only [inputsOfBoth, List.mem_flatMap, List.mem_map] at hinput
    obtain ⟨_, -, _, -, _, -, rfl⟩ := hinput
    rfl
  rw [compareConnections]
  generalize inputsOfBoth connections connections = inputs at hsame
  induction inputs with
  | nil => rfl
  | cons input inputs ih =>
    obtain ⟨nodeName, inputName, sourceIndex, prevConnections, nextConnections⟩ := input
    obtain rfl : prevConnections = nextConnections := hsame _ List.mem_cons_self
    simp only [List.foldl_cons, surplus_self, recordEntries, List.isEmpty_nil, true_or, if_true]
    exact ih fun input hinput => hsame input (List.mem_cons_of_mem _ hinput)

end ChangeSet

/-! ## Only redundant versions are dropped -/

/-- The parameters of each node of the earlier version are kept, with some strings grown. -/
def DiffableWorkflow.Extends (prev next : DiffableWorkflow) : Prop :=
  ∀ node ∈ prev.nodes, ∃ other ∈ next.nodes, other.id = node.id ∧
    Workflows.Extends node.parameters other.parameters

/-- An object in the parameters of a node stands where the later version has an array. -/
def DiffableWorkflow.TurnsToArray (prev next : DiffableWorkflow) : Prop :=
  ∃ node ∈ prev.nodes, ∃ other ∈ next.nodes, other.id = node.id ∧
    Workflows.TurnsToArray node.parameters other.parameters

/-- The rule is right about the versions between which no object turns into an array. -/
theorem DiffableWorkflow.extends_iff {prev next : DiffableWorkflow} {metaData : DiffMetaData}
    (h : mergeAdditiveChanges prev next (.create prev next) metaData = true) :
    prev.Extends next ↔ ¬ prev.TurnsToArray next := by
  constructor
  · rintro hext ⟨node, hnode, other, hother, hid, hturns⟩
    obtain ⟨other', hother', hid', hvalue⟩ := hext node hnode
    obtain rfl := List.inj_on_of_nodup_map next.nodup hother hother' (hid.trans hid'.symm)
    exact not_turnsToArray hvalue hturns
  · intro hturns node hnode
    obtain ⟨other, hother, hid, hvalue⟩ := exists_of_mergeAdditiveChanges h hnode
    refine ⟨other, hother, hid, ?_⟩
    rcases hvalue with heq | hsuper
    · exact extends_of_isEqual heq
    · exact extends_of_parametersAreSuperset hsuper
        fun ht => hturns ⟨node, hnode, other, hother, hid, ht⟩

/-- A way to drop versions, read from the newest one back: a version is only dropped where one that
is kept after it dominates it. -/
inductive Grouping (dominates : DiffableWorkflow → DiffableWorkflow → Prop) :
    List DiffableWorkflow → List DiffableWorkflow → List DiffableWorkflow → Prop
  | nil : Grouping dominates [] [] []
  | keep (version : DiffableWorkflow) {later removed remaining : List DiffableWorkflow}
    (h : Grouping dominates later removed remaining) :
    Grouping dominates (version :: later) removed (version :: remaining)
  | remove {version next : DiffableWorkflow} {later removed remaining : List DiffableWorkflow}
    (h : Grouping dominates later removed remaining) (hnext : next ∈ remaining)
    (hdom : dominates version next) :
    Grouping dominates (version :: later) (version :: removed) remaining

section Grouping

variable {dominates : DiffableWorkflow → DiffableWorkflow → Prop}
variable {workflows removed remaining : List DiffableWorkflow}

section Grouping

variable (h : Grouping dominates workflows removed remaining)
include h

theorem Grouping.perm : (removed ++ remaining).Perm workflows := by
  induction h with
  | nil => rfl
  | keep version _ ih => exact List.perm_middle.trans (ih.cons version)
  | remove _ _ _ ih => exact ih.cons _

theorem Grouping.sublist : remaining.Sublist workflows := by
  induction h with
  | nil => exact List.Sublist.refl _
  | keep version _ ih => exact ih.cons_cons version
  | remove _ _ _ ih => exact ih.cons _

theorem Grouping.getLast? : remaining.getLast? = workflows.getLast? := by
  induction h with
  | nil => rfl
  | keep version _ ih => rw [List.getLast?_cons, List.getLast?_cons, ih]
  | @remove version next later removed remaining _ hnext _ ih =>
    rw [List.getLast?_cons, ← ih, List.getLast?_eq_some_getLast (List.ne_nil_of_mem hnext)]
    rfl

end Grouping

end Grouping

/-! ## The loop keeps to that -/

section Loop

variable {rules skipRules : List DiffRule} {metaData : DiffMetaData}
variable {dominates : DiffableWorkflow → DiffableWorkflow → Prop}
variable {older later removed : List DiffableWorkflow} {prev next : DiffableWorkflow}
  {workflowSizeScore : Bool}

/-- One round: the last of the versions not yet visited meets the first one that is kept. -/
theorem diffLoop_succ {kept : List DiffableWorkflow} :
    diffLoop rules skipRules metaData (older.length + 1)
      (removed, (older ++ [prev]) ++ next :: kept) =
    if merges rules skipRules metaData prev next then
      diffLoop rules skipRules metaData older.length (removed ++ [prev], older ++ next :: kept)
    else diffLoop rules skipRules metaData older.length
      (removed, older ++ prev :: next :: kept) := by
  rw [diffLoop, List.append_assoc, List.singleton_append]
  have hprev : (older ++ prev :: next :: kept)[older.length]? = some prev := by simp
  have hnext : (older ++ prev :: next :: kept)[older.length + 1]? = some next := by
    rw [List.getElem?_append_right (by omega)]
    simp
  simp only [hprev, hnext]
  rw [List.eraseIdx_append_of_length_le (Nat.le_refl _)]
  simp

/-- What the rest of the loop makes of a grouping of the versions visited so far. -/
theorem diffLoop_grouping {versions kept : List DiffableWorkflow}
    (hdom : ∀ prev ∈ versions, ∀ next ∈ versions,
      merges rules skipRules metaData prev next = true → dominates prev next)
    (hversions : ∀ version ∈ older ++ next :: kept, version ∈ versions)
    (h : Grouping dominates later removed.reverse (next :: kept)) :
    Grouping dominates (older ++ later)
      (diffLoop rules skipRules metaData older.length (removed, older ++ next :: kept)).1.reverse
      (diffLoop rules skipRules metaData older.length (removed, older ++ next :: kept)).2 := by
  induction older using List.reverseRecOn generalizing later removed next kept with
  | nil => exact h
  | append_singleton older prev ih =>
    rw [List.length_append, List.length_singleton, diffLoop_succ, List.append_assoc]
    have hprev := hversions prev (by simp)
    have hnext := hversions next (by simp)
    split
    · rename_i hmerge
      refine ih (fun version hv => hversions version ?_) ?_
      · simp only [List.mem_append] at hv ⊢
        exact hv.imp_left .inl
      · -- the dropped version is listed behind those dropped so far
        rw [List.reverse_append]
        exact .remove h List.mem_cons_self (hdom prev hprev next hnext hmerge)
    · refine ih (fun version hv => hversions version ?_) (.keep prev h)
      simpa [or_assoc] using hv

/-- Whatever makes one version drop another, the loop only does that in favour of a version that
it keeps. -/
theorem groupWorkflows_grouping {workflows : List DiffableWorkflow}
    (hdom : ∀ prev ∈ workflows, ∀ next ∈ workflows,
      merges rules skipRules (metaDataOf workflows workflowSizeScore) prev next = true →
        dominates prev next) :
    Grouping dominates workflows
      (groupWorkflows workflows rules skipRules workflowSizeScore).1.reverse
      (groupWorkflows workflows rules skipRules workflowSizeScore).2 := by
  rw [groupWorkflows]
  split
  · rename_i hlen
    obtain rfl := List.length_eq_zero_iff.mp hlen
    exact .nil
  split
  · rename_i hlen
    obtain ⟨version, rfl⟩ := List.length_eq_one_iff.mp hlen
    exact .keep version .nil
  · rename_i hne _
    rcases List.eq_nil_or_concat workflows with rfl | ⟨older, newest, hsplit⟩
    · exact absurd rfl hne
    rw [List.concat_eq_append] at hsplit
    have hversions : ∀ version ∈ older ++ [newest], version ∈ workflows := by
      intro version hv
      rwa [hsplit]
    have hbase : Grouping dominates [newest] [].reverse [newest] := .keep newest .nil
    have h := diffLoop_grouping hdom hversions hbase
    rw [← hsplit] at h
    simpa [hsplit] using h

/-- A list of two versions is one round. -/
theorem groupWorkflows_pair
    (h : merges rules skipRules (metaDataOf [prev, next] workflowSizeScore) prev next = true) :
    groupWorkflows [prev, next] rules skipRules workflowSizeScore = ([prev], [next]) := by
  simp [groupWorkflows, diffLoop, h]

end Loop

/-- The later version satisfies a rule, and if that is the rule for additive changes it has all that
the earlier one had. -/
def Dominates (rules : List DiffRule) (metaData : DiffMetaData) (prev next : DiffableWorkflow) :
    Prop :=
  (∃ rule ∈ rules, rule prev next (.create prev next) metaData = true) ∧
    (rules = [mergeAdditiveChanges] → prev.Extends next)

/-- The dropped and the remaining versions are the given ones, the remaining ones in their order and
with the newest one among them, and each dropped version has a later one among them that dominates
it. -/
structure OnlyRedundant (workflows : List DiffableWorkflow) (rules skipRules : List DiffRule)
    (workflowSizeScore : Bool) : Prop where
  perm : ((groupWorkflows workflows rules skipRules workflowSizeScore).1 ++
    (groupWorkflows workflows rules skipRules workflowSizeScore).2).Perm workflows
  order : (groupWorkflows workflows rules skipRules workflowSizeScore).2.Sublist workflows
  newest : (groupWorkflows workflows rules skipRules workflowSizeScore).2.getLast? =
    workflows.getLast?
  dominated : Grouping (Dominates rules (metaDataOf workflows workflowSizeScore)) workflows
    (groupWorkflows workflows rules skipRules workflowSizeScore).1.reverse
    (groupWorkflows workflows rules skipRules workflowSizeScore).2

section OnlyRedundant

variable {workflows : List DiffableWorkflow} {rules skipRules : List DiffRule}
variable {workflowSizeScore : Bool} {prev next : DiffableWorkflow}

theorem onlyRedundant_of_grouping
    (h : Grouping (Dominates rules (metaDataOf workflows workflowSizeScore)) workflows
      (groupWorkflows workflows rules skipRules workflowSizeScore).1.reverse
      (groupWorkflows workflows rules skipRules workflowSizeScore).2) :
    OnlyRedundant workflows rules skipRules workflowSizeScore where
  perm := ((List.reverse_perm _).symm.append_right _).trans h.perm
  order := h.sublist
  newest := h.getLast?
  dominated := h

theorem onlyRedundant_of_extends
    (h : rules = [mergeAdditiveChanges] → ∀ prev ∈ workflows, ∀ next ∈ workflows,
      mergeAdditiveChanges prev next (.create prev next) (metaDataOf workflows workflowSizeScore)
        = true → prev.Extends next) :
    OnlyRedundant workflows rules skipRules workflowSizeScore := by
  refine onlyRedundant_of_grouping (groupWorkflows_grouping fun prev hprev next hnext hmerge => ?_)
  simp only [merges, Bool.and_eq_true, List.any_eq_true] at hmerge
  obtain ⟨-, rule, hrule, hholds⟩ := hmerge
  refine ⟨⟨rule, hrule, hholds⟩, ?_⟩
  rintro rfl
  obtain rfl := List.mem_singleton.mp hrule
  exact h rfl prev hprev next hnext hholds

/-- Of two versions the earlier one is only dropped if the later one dominates it. -/
theorem OnlyRedundant.dominates_pair (h : OnlyRedundant [prev, next] rules skipRules workflowSizeScore)
    (hmerge : merges rules skipRules (metaDataOf [prev, next] workflowSizeScore) prev next = true) :
    Dominates rules (metaDataOf [prev, next] workflowSizeScore) prev next := by
  have hgroup := h.dominated
  rw [groupWorkflows_pair hmerge] at hgroup
  cases hgroup with
  | keep _ h =>
    -- nothing would be left to drop the other version for
    cases h with
    | remove _ hnext => cases hnext
  | remove _ hnext hdom => rwa [List.mem_singleton.mp hnext] at hdom

end OnlyRedundant

def optionsKey : Fin 1 ↪ JsString := ⟨![js "options".toList], fun _ _ _ => Subsingleton.elim _ _⟩

def optionsVersion (options : ParameterValue) : DiffableWorkflow where
  nodes := [⟨"1", .object optionsKey ![options], OrderedMap.empty.set "name" (.string [])⟩]
  connections := OrderedMap.empty
  createdAt := 0
  authors := none
  nodeGroups := none
  nodup := List.nodup_singleton _

end N8n.Workflows
