import N8n.Workflows.GraphUtils
import N8n.Workflows.WorkflowDiff

/-!
# Node groups

The nodes of a workflow are put in groups, on the canvas and in what is stored. A validator reports
what is wrong with the groups: first what concerns their ids, names and members, then, where the
types of the nodes are known, whether a group could be a sub-workflow. A repair drops the groups
that something is wrong with.

## Main definitions

* `validateNodeSelectionForGrouping`: whether some nodes can be a group next to the others
* `validateWorkflowGroups`: the validator
* `dropInvalidWorkflowGroups`: the repair
* `Repairs`: what both are for
* `UnnamedOverlap`: nothing is wrong but that a group without a name shares a node

## Main results

* `basicViolations_eq_nil_iff`: what the basic checks accept
* `validate_kept`: what the repair keeps is accepted
* `repairs_iff`: exactly when the repair and the validator do what they are for
* `not_repairs`: a node of a group without a name is in another one
-/

namespace N8n.Workflows

/-! ## Nodes that can be a group -/

structure INode where
  id : String
  name : String
  type : String
  deriving DecidableEq

structure INodeTypeDescription where
  group : List String

def isTriggerNode (nodeTypeData : INodeTypeDescription) : Bool :=
  nodeTypeData.group.contains "trigger"

inductive NodeGroupProblem
  | nodeAlreadyGrouped (nodeIds : List String)
  | triggerSelected (triggers : List String)
  | invalidSubgraph (errors : List ExtractableErrorResult)
  | nonMainBoundary (source target type : String)

/-- The neighbors of each selected node, along connections in either direction. -/
def neighborsByNodeName (nodeNames : OrderedSet String)
    (currentAdjacencyList : IConnectionAdjacencyList) : OrderedMap String (OrderedSet String) :=
  let empty := nodeNames.elements.foldl (fun neighbors nodeName => neighbors.set nodeName .empty)
    OrderedMap.empty
  currentAdjacencyList.entries.foldl (fun neighbors (sourceNodeName, connections) =>
    connections.foldl (fun neighbors connection =>
      if sourceNodeName ∈ nodeNames ∧ connection.node ∈ nodeNames ∧
          connection.node ≠ sourceNodeName then
        let sources := ((neighbors.get? sourceNodeName).getD .empty).insert connection.node
        let neighbors := neighbors.set sourceNodeName sources
        let targets := ((neighbors.get? connection.node).getD .empty).insert sourceNodeName
        neighbors.set connection.node targets
      else neighbors) neighbors) empty

/-- The names that are found breadth first; every name enters the queue once, so `fuel` need not
exceed their number. An empty name is not searched. -/
def visitNeighbors (neighbors : OrderedMap String (OrderedSet String)) :
    ℕ → List String → OrderedSet String → OrderedSet String
  | 0, _, visited => visited
  | _, [], visited => visited
  | fuel + 1, currentNodeName :: queue, visited =>
    if currentNodeName = "" then visitNeighbors neighbors fuel queue visited
    else
      let found := ((neighbors.get? currentNodeName).getD .empty).diff visited
      visitNeighbors neighbors fuel (queue ++ found.elements) (visited.insertAll found.elements)

def findDisconnectedSelectionError (nodeNames : OrderedSet String)
    (currentAdjacencyList : IConnectionAdjacencyList) : Option ExtractableErrorResult :=
  match nodeNames.elements with
  | [] | [_] => none
  | firstNodeName :: rest =>
    if firstNodeName = "" then none
    else
      let visited := visitNeighbors (neighborsByNodeName nodeNames currentAdjacencyList)
        nodeNames.size [firstNodeName] (OrderedSet.empty.insert firstNodeName)
      match (firstNodeName :: rest).find? (· ∉ visited) with
      | some disconnectedNodeName =>
        if disconnectedNodeName = "" then none
        else some (.noContinuousPathFromRootToLeaf firstNodeName disconnectedNodeName)
      | none => none

/-- The first connection of another type that crosses the boundary: its ends and its type. -/
def findNonMainBoundaryConnection (nodeNames : OrderedSet String)
    (connectionsBySourceNode : IConnections) : Option (String × String × String) :=
  (links connectionsBySourceNode).findSome? fun link =>
    if link.out.type ≠ "main" ∧
        decide (link.source ∈ nodeNames) ≠ decide (link.out.connection.node ∈ nodeNames) then
      some (link.source, link.out.connection.node, link.out.type)
    else none

section Selection

variable (nodes : List INode) (connectionsBySourceNode : IConnections)
  (getNodeType : INode → Option INodeTypeDescription)

def validateNodeSelectionSubgraph : Except NodeGroupProblem ExtractableSubgraphData :=
  let triggers := nodes.filter fun node => (getNodeType node).any isTriggerNode
  if triggers ≠ [] then .error (.triggerSelected (triggers.map INode.name))
  else
    let adjacencyList := buildAdjacencyList connectionsBySourceNode
    let selectedNodeNames := OrderedSet.ofList (nodes.map INode.name)
    match parseExtractableSubgraphSelection selectedNodeNames adjacencyList with
    | .error errors => .error (.invalidSubgraph errors)
    | .ok selection =>
      match findDisconnectedSelectionError selectedNodeNames adjacencyList with
      | some disconnectedSelectionError => .error (.invalidSubgraph [disconnectedSelectionError])
      | none => .ok selection

def stickyNodeType : String := "n8n-nodes-base.stickyNote"

/-- The rules for the nodes themselves, whatever the other groups are. -/
def validateConnectableNodes : Except NodeGroupProblem ExtractableSubgraphData :=
  let connectableNodes := nodes.filter fun node => node.type ≠ stickyNodeType
  if connectableNodes = [] then .ok ⟨none, none⟩
  else
    match validateNodeSelectionSubgraph connectableNodes connectionsBySourceNode getNodeType with
    | .error problem => .error problem
    | .ok selection =>
      match findNonMainBoundaryConnection (.ofList (connectableNodes.map INode.name))
          connectionsBySourceNode with
      | some (source, target, type) => .error (.nonMainBoundary source target type)
      | none => .ok selection

def findAlreadyGroupedNodeIds (selectionNodeIds : List String)
    (existingNodeGroups : List IWorkflowGroup) : List String :=
  let groupedNodeIds := existingNodeGroups.flatMap IWorkflowGroup.nodeIds
  selectionNodeIds.filter (· ∈ groupedNodeIds)

/-- The nodes and where they are entered and left, or what is wrong with them as a group. -/
def validateNodeSelectionForGrouping (existingNodeGroups : List IWorkflowGroup) :
    Except NodeGroupProblem (List INode × ExtractableSubgraphData) :=
  let alreadyGroupedNodeIds := findAlreadyGroupedNodeIds (nodes.map INode.id) existingNodeGroups
  if alreadyGroupedNodeIds ≠ [] then .error (.nodeAlreadyGrouped alreadyGroupedNodeIds)
  else (nodes, ·) <$> validateConnectableNodes nodes connectionsBySourceNode getNodeType

end Selection

/-! ## The validator -/

inductive WorkflowGroupViolationCode
  | duplicateGroupId
  | duplicateGroupName
  | emptyGroup
  | unknownNodeId
  | nodeInMultipleGroups
  | nodeAlreadyGrouped
  | triggerSelected
  | invalidSubgraph
  | nonMainBoundary
  deriving DecidableEq

structure WorkflowGroupViolation where
  groupId : String
  groupName : String
  code : WorkflowGroupViolationCode
  message : String
  deriving DecidableEq

def quoted (text : String) : String := "\"" ++ text ++ "\""

def describeSubgraphError (error : Option ExtractableErrorResult) (nodeLabel : String → String) :
    String :=
  let labels (nodes : OrderedSet String) :=
    ", ".intercalate (nodes.elements.map fun node => quoted (nodeLabel node))
  match error with
  | none => ""
  | some (.outputEdgeFromNonLeafNode node) =>
    " (output edge from non-leaf node: " ++ quoted (nodeLabel node) ++ ")"
  | some (.inputEdgeToNonRootNode node) =>
    " (input edge to non-root node: " ++ quoted (nodeLabel node) ++ ")"
  | some (.multipleInputNodes nodes) => " (multiple input nodes: " ++ labels nodes ++ ")"
  | some (.multipleOutputNodes nodes) => " (multiple output nodes: " ++ labels nodes ++ ")"
  | some (.noContinuousPathFromRootToLeaf start «end») =>
    " (no path from " ++ quoted (nodeLabel start) ++ " to " ++ quoted (nodeLabel «end») ++ ")"

def groupRuleViolation (group : IWorkflowGroup) (problem : NodeGroupProblem)
    (nodeLabel : String → String) : WorkflowGroupViolation :=
  let label := "Node group " ++ quoted group.name
  match problem with
  | .triggerSelected triggers => ⟨group.id, group.name, .triggerSelected,
      label ++ " cannot contain trigger nodes: " ++ ", ".intercalate triggers ++ "."⟩
  | .invalidSubgraph errors => ⟨group.id, group.name, .invalidSubgraph,
      label ++ " must form a single connected subgraph with a single entry and exit" ++
        describeSubgraphError errors.head? nodeLabel ++ "."⟩
  | .nodeAlreadyGrouped nodeIds => ⟨group.id, group.name, .nodeAlreadyGrouped,
      label ++ " contains nodes that already belong to another group: " ++
        ", ".intercalate (nodeIds.map nodeLabel) ++ "."⟩
  | .nonMainBoundary source target type => ⟨group.id, group.name, .nonMainBoundary,
      label ++ " cannot cross the " ++ quoted type ++ " connection between " ++ quoted source ++
        " and " ++ quoted target ++ "."⟩

section Validator

variable (nodes : List INode)

def nodeById : OrderedMap String INode :=
  OrderedMap.empty.insertAll INode.id (nodes.filter fun node => node.id ≠ "")

/-- `nodeById.get(nodeId)?.name || nodeId` -/
def nodeLabel (nodeId : String) : String :=
  match (nodeById nodes).get? nodeId with
  | some node => if node.name = "" then nodeId else node.name
  | none => nodeId

structure SeenGroups where
  seenGroupIds : List String
  seenGroupNames : List String
  nodeToGroup : OrderedMap String String

def SeenGroups.empty : SeenGroups := ⟨[], [], .empty⟩

/-- One member of a group; a group without a name counts as none. -/
def checkMember (group : IWorkflowGroup)
    (s : OrderedMap String String × List WorkflowGroupViolation) (nodeId : String) :
    OrderedMap String String × List WorkflowGroupViolation :=
  if ((nodeById nodes).get? nodeId).isNone then
    (s.1, s.2 ++ [⟨group.id, group.name, .unknownNodeId, "Group " ++ quoted group.name ++
      " references node ID " ++ quoted nodeId ++ " that does not exist in the workflow."⟩])
  else
    let existingGroup := (s.1.get? nodeId).getD ""
    if existingGroup ≠ "" then
      (s.1, s.2 ++ [⟨group.id, group.name, .nodeInMultipleGroups, "Node " ++
        quoted (nodeLabel nodes nodeId) ++ " belongs to multiple groups: " ++
        quoted existingGroup ++ " and " ++ quoted group.name ++ "."⟩])
    else (s.1.set nodeId group.name, s.2)

def checkGroup (seen : SeenGroups) (group : IWorkflowGroup) :
    SeenGroups × List WorkflowGroupViolation :=
  let ids := if group.id ∈ seen.seenGroupIds then
    [⟨group.id, group.name, .duplicateGroupId,
      "Duplicate node group ID " ++ quoted group.id ++ "."⟩]
    else []
  let names := if group.name ∈ seen.seenGroupNames then
    [⟨group.id, group.name, .duplicateGroupName,
      "Duplicate node group name " ++ quoted group.name ++ "."⟩]
    else []
  let memberless := if group.nodeIds = [] then
    [⟨group.id, group.name, .emptyGroup, "Group " ++ quoted group.name ++ " has no members."⟩]
    else []
  let (nodeToGroup, members) := group.nodeIds.foldl (checkMember nodes group) (seen.nodeToGroup, [])
  (⟨seen.seenGroupIds ++ [group.id], seen.seenGroupNames ++ [group.name], nodeToGroup⟩,
    ids ++ names ++ memberless ++ members)

/-- Each group with its basic violations. Groups are told apart by their places. -/
def basicViolations : SeenGroups → List IWorkflowGroup →
    List (IWorkflowGroup × List WorkflowGroupViolation)
  | _, [] => []
  | seen, group :: groups =>
    let (seen, violations) := checkGroup nodes seen group
    (group, violations) :: basicViolations seen groups

variable (connectionsBySourceNode : Option IConnections) (nodeGroups : List IWorkflowGroup)
  (getNodeType : Option (INode → Option INodeTypeDescription))

def ruleViolations (group : IWorkflowGroup) (basic : List WorkflowGroupViolation) :
    List WorkflowGroupViolation :=
  match getNodeType with
  | none => []
  | some getNodeType =>
    if basic ≠ [] then []
    else
      let groupNodes := group.nodeIds.filterMap (nodeById nodes).get?
      let existingNodeGroups := nodeGroups.filter fun other => other.id ≠ group.id
      match validateNodeSelectionForGrouping groupNodes (connectionsBySourceNode.getD .empty)
          getNodeType existingNodeGroups with
      | .ok _ => []
      | .error problem => [groupRuleViolation group problem (nodeLabel nodes)]

/-- Each group with its basic violations and those of the rules. -/
def groupViolations :
    List (IWorkflowGroup × List WorkflowGroupViolation × List WorkflowGroupViolation) :=
  (basicViolations nodes .empty nodeGroups).map fun (group, basic) =>
    (group, basic,
      ruleViolations nodes connectionsBySourceNode nodeGroups getNodeType group basic)

/-- The violations, those of the basic checks first; there is none exactly if the groups are
valid. -/
def validateWorkflowGroups : List WorkflowGroupViolation :=
  let found := groupViolations nodes connectionsBySourceNode nodeGroups getNodeType
  (found.flatMap fun entry => entry.2.1) ++ found.flatMap fun entry => entry.2.2

def dropInvalidWorkflowGroups (shouldDrop : WorkflowGroupViolation → Bool) :
    List IWorkflowGroup × List WorkflowGroupViolation :=
  let found := groupViolations nodes connectionsBySourceNode nodeGroups getNodeType
  ((found.filter fun entry => ¬ (entry.2.1 ++ entry.2.2).any shouldDrop).map Prod.fst,
    (validateWorkflowGroups nodes connectionsBySourceNode nodeGroups getNodeType).filter shouldDrop)

end Validator

/-! ## The basic checks -/

section Basic

variable {nodes : List INode} {before groups : List IWorkflowGroup} {group : IWorkflowGroup}
  {seen : SeenGroups} {s : OrderedMap String String × List WorkflowGroupViolation} {nodeId : String}

def Known (nodes : List INode) (nodeId : String) : Prop :=
  ((nodeById nodes).get? nodeId).isSome

/-- A group that is right by itself; in a group without a name a member may be listed twice. -/
structure Fine (nodes : List INode) (group : IWorkflowGroup) : Prop where
  members : group.nodeIds ≠ []
  known : ∀ nodeId ∈ group.nodeIds, Known nodes nodeId
  once : group.name ≠ "" → group.nodeIds.Nodup

/-- The second group is right after the first one; the members of a group without a name may be in
the second one as well. -/
structure Compatible (first second : IWorkflowGroup) : Prop where
  id : first.id ≠ second.id
  name : first.name ≠ second.name
  apart : first.name ≠ "" → ∀ nodeId ∈ second.nodeIds, nodeId ∉ first.nodeIds

def Owned (nodeToGroup : OrderedMap String String) (nodeId : String) : Prop :=
  (nodeToGroup.get? nodeId).getD "" ≠ ""

structure Seen (nodes : List INode) (before : List IWorkflowGroup) (seen : SeenGroups) : Prop where
  ids : seen.seenGroupIds = before.map IWorkflowGroup.id
  names : seen.seenGroupNames = before.map IWorkflowGroup.name
  owned : ∀ nodeId, Known nodes nodeId →
    (Owned seen.nodeToGroup nodeId ↔ ∃ g ∈ before, g.name ≠ "" ∧ nodeId ∈ g.nodeIds)

theorem seen_empty : Seen nodes [] .empty := by
  refine ⟨rfl, rfl, fun nodeId _ => iff_of_false (fun h => h rfl) ?_⟩
  rintro ⟨g, hg, -⟩
  exact absurd hg List.not_mem_nil

theorem owned_set {nodeToGroup : OrderedMap String String} {nodeId nodeId' name : String} :
    Owned (nodeToGroup.set nodeId name) nodeId' ↔
      if nodeId' = nodeId then name ≠ "" else Owned nodeToGroup nodeId' := by
  unfold Owned
  rw [OrderedMap.get?_set]
  split <;> rfl

theorem checkMember_unknown (h : ¬ Known nodes nodeId) :
    (checkMember nodes group s nodeId).1 = s.1 ∧ (checkMember nodes group s nodeId).2 ≠ [] := by
  unfold checkMember
  rw [if_pos (by simpa [Known] using h)]
  exact ⟨rfl, by simp⟩

theorem checkMember_owned (h : Known nodes nodeId) (hown : Owned s.1 nodeId) :
    (checkMember nodes group s nodeId).1 = s.1 ∧ (checkMember nodes group s nodeId).2 ≠ [] := by
  have howned : (s.1.get? nodeId).getD "" ≠ "" := hown
  unfold checkMember
  rw [if_neg (by simpa [Known, Option.isSome_iff_ne_none] using h)]
  dsimp only
  rw [if_pos howned]
  exact ⟨rfl, by simp⟩

theorem checkMember_free (h : Known nodes nodeId) (hown : ¬ Owned s.1 nodeId) :
    checkMember nodes group s nodeId = (s.1.set nodeId group.name, s.2) := by
  have howned : ¬ (s.1.get? nodeId).getD "" ≠ "" := hown
  unfold checkMember
  rw [if_neg (by simpa [Known, Option.isSome_iff_ne_none] using h)]
  dsimp only
  rw [if_neg howned]

/-- **The members of a group**, from the first one on. -/
theorem foldl_checkMember (nodeToGroup : OrderedMap String String) (nodeIds : List String) :
    ((nodeIds.foldl (checkMember nodes group) (nodeToGroup, [])).2 = [] ↔
      (∀ nodeId ∈ nodeIds, Known nodes nodeId ∧ ¬ Owned nodeToGroup nodeId) ∧
        (group.name ≠ "" → nodeIds.Nodup)) ∧
    ∀ nodeId, Known nodes nodeId →
      (Owned (nodeIds.foldl (checkMember nodes group) (nodeToGroup, [])).1 nodeId ↔
        Owned nodeToGroup nodeId ∨ group.name ≠ "" ∧ nodeId ∈ nodeIds) := by
  induction nodeIds using List.reverseRecOn with
  | nil => simp
  | append_singleton nodeIds nodeId ih =>
    obtain ⟨hnone, howned⟩ := ih
    rw [List.foldl_append, List.foldl_cons, List.foldl_nil]
    generalize nodeIds.foldl (checkMember nodes group) (nodeToGroup, []) = s at hnone howned ⊢
    have hsplit : (nodeIds ++ [nodeId]).Nodup ↔ nodeIds.Nodup ∧ nodeId ∉ nodeIds := by
      rw [List.nodup_append]
      simp only [List.nodup_singleton, true_and, List.mem_singleton, forall_eq]
      exact and_congr_right fun _ => ⟨fun h hin => h nodeId hin rfl, fun h a ha heq => h (heq ▸ ha)⟩
    have hmem : ∀ id, id ∈ nodeIds ++ [nodeId] ↔ id ∈ nodeIds ∨ id = nodeId := by
      intro id
      rw [List.mem_append, List.mem_singleton]
    by_cases hknown : Known nodes nodeId
    · by_cases hown : Owned s.1 nodeId
      · obtain ⟨hsame, hsome⟩ := checkMember_owned hknown hown
        refine ⟨iff_of_false hsome ?_, fun id hid => ?_⟩
        · rintro ⟨hfree, hnd⟩
          -- it is owned because of the members before, so it is listed twice
          obtain hbefore | ⟨hname, hin⟩ := (howned nodeId hknown).mp hown
          · exact (hfree nodeId ((hmem nodeId).mpr (.inr rfl))).2 hbefore
          · exact (hsplit.mp (hnd hname)).2 hin
        · rw [hsame, howned id hid, hmem]
          constructor
          · rintro (hbefore | ⟨hname, hin⟩)
            · exact .inl hbefore
            · exact .inr ⟨hname, .inl hin⟩
          · rintro (hbefore | ⟨hname, hin | rfl⟩)
            · exact .inl hbefore
            · exact .inr ⟨hname, hin⟩
            · exact (howned id hid).mp hown
      · rw [checkMember_free hknown hown]
        have hfree : ¬ Owned nodeToGroup nodeId ∧ (group.name ≠ "" → nodeId ∉ nodeIds) := by
          rw [howned nodeId hknown] at hown
          exact ⟨fun h => hown (.inl h), fun hname hin => hown (.inr ⟨hname, hin⟩)⟩
        refine ⟨hnone.trans ⟨?_, ?_⟩, fun id hid => ?_⟩
        · rintro ⟨hall, hnd⟩
          refine ⟨fun id hid => ?_, fun hname => hsplit.mpr ⟨hnd hname, hfree.2 hname⟩⟩
          obtain hin | rfl := (hmem id).mp hid
          · exact hall id hin
          · exact ⟨hknown, hfree.1⟩
        · rintro ⟨hall, hnd⟩
          exact ⟨fun id hid => hall id ((hmem id).mpr (.inl hid)),
            fun hname => (hsplit.mp (hnd hname)).1⟩
        · rw [owned_set, hmem]
          by_cases heq : id = nodeId
          · rw [if_pos heq]
            subst heq
            constructor
            · intro hname
              exact .inr ⟨hname, .inr rfl⟩
            · rintro (hbefore | ⟨hname, -⟩)
              · exact absurd hbefore hfree.1
              · exact hname
          · rw [if_neg heq, howned id hid, or_iff_left heq]
    · obtain ⟨hsame, hsome⟩ := @checkMember_unknown nodes group s _ hknown
      refine ⟨iff_of_false hsome ?_, fun id hid => ?_⟩
      · rintro ⟨hall, -⟩
        exact hknown (hall nodeId ((hmem nodeId).mpr (.inr rfl))).1
      · have hne : id ≠ nodeId := fun h => hknown (h ▸ hid)
        rw [hsame, howned id hid, hmem, or_iff_left hne]

/-- **The checks of a group**: what they accept, and what they remember. -/
theorem checkGroup_spec (h : Seen nodes before seen) :
    ((checkGroup nodes seen group).2 = [] ↔
      Fine nodes group ∧ ∀ b ∈ before, Compatible b group) ∧
    Seen nodes (before ++ [group]) (checkGroup nodes seen group).1 := by
  obtain ⟨hnone, howned⟩ := @foldl_checkMember nodes group seen.nodeToGroup group.nodeIds
  refine ⟨?_, ⟨?_, ?_, fun nodeId hknown => ?_⟩⟩
  · simp only [checkGroup, List.append_eq_nil_iff, ite_eq_right_iff, imp_false, List.cons_ne_nil,
      hnone, h.ids, h.names]
    constructor
    · rintro ⟨⟨⟨hid, hname⟩, hmembers⟩, hall, hnd⟩
      refine ⟨⟨hmembers, fun nodeId hin => (hall nodeId hin).1, hnd⟩, fun b hb => ⟨?_, ?_, ?_⟩⟩
      · exact fun heq => hid (heq ▸ List.mem_map_of_mem hb)
      · exact fun heq => hname (heq ▸ List.mem_map_of_mem hb)
      · intro hne nodeId hin hinb
        obtain ⟨hknown, hfree⟩ := hall nodeId hin
        exact hfree ((h.owned nodeId hknown).mpr ⟨b, hb, hne, hinb⟩)
    · rintro ⟨hfine, hcompatible⟩
      refine ⟨⟨⟨?_, ?_⟩, hfine.members⟩, fun nodeId hin => ⟨hfine.known nodeId hin, ?_⟩, hfine.once⟩
      · intro hin
        obtain ⟨b, hb, heq⟩ := List.mem_map.mp hin
        exact (hcompatible b hb).id heq
      · intro hin
        obtain ⟨b, hb, heq⟩ := List.mem_map.mp hin
        exact (hcompatible b hb).name heq
      · intro hown
        obtain ⟨b, hb, hne, hinb⟩ := (h.owned nodeId (hfine.known nodeId hin)).mp hown
        exact (hcompatible b hb).apart hne nodeId hin hinb
  · rw [List.map_append, ← h.ids]
    rfl
  · rw [List.map_append, ← h.names]
    rfl
  · refine (howned nodeId hknown).trans ?_
    rw [h.owned nodeId hknown]
    constructor
    · rintro (⟨g, hg, hin⟩ | hin)
      · exact ⟨g, List.mem_append_left _ hg, hin⟩
      · exact ⟨group, List.mem_append_right _ (List.mem_singleton_self _), hin⟩
    · rintro ⟨g, hg, hin⟩
      obtain hbefore | hself := List.mem_append.mp hg
      · exact .inl ⟨g, hbefore, hin⟩
      · exact .inr (List.mem_singleton.mp hself ▸ hin)

theorem map_basicViolations : (basicViolations nodes seen groups).map Prod.fst = groups := by
  induction groups generalizing seen with
  | nil => rfl
  | cons group groups ih => exact congrArg (group :: ·) ih

/-- A group that nothing is wrong with is fine, and it is right after every group before it. -/
theorem basicViolations_sound (h : Seen nodes before seen) :
    (∀ entry ∈ basicViolations nodes seen groups, entry.2 = [] →
      Fine nodes entry.1 ∧ ∀ b ∈ before, Compatible b entry.1) ∧
    (basicViolations nodes seen groups).Pairwise
      (fun first second => second.2 = [] → Compatible first.1 second.1) := by
  induction groups generalizing before seen with
  | nil => exact ⟨by simp [basicViolations], List.Pairwise.nil⟩
  | cons group groups ih =>
    obtain ⟨hgroup, hseen⟩ := @checkGroup_spec nodes _ group _ h
    obtain ⟨hall, hpairs⟩ := ih hseen
    unfold basicViolations
    constructor
    · intro entry hentry hnone
      obtain rfl | hentry := List.mem_cons.mp hentry
      · exact hgroup.mp hnone
      · obtain ⟨hfine, hcompatible⟩ := hall entry hentry hnone
        exact ⟨hfine, fun b hb => hcompatible b (List.mem_append_left _ hb)⟩
    · refine List.pairwise_cons.mpr ⟨fun entry hentry hnone => ?_, hpairs⟩
      apply (hall entry hentry hnone).2
      exact List.mem_append_right _ (List.mem_singleton_self _)

/-- Conversely, there is nothing wrong with groups that are fine and right after each other. -/
theorem basicViolations_complete (h : Seen nodes before seen)
    (hfine : ∀ g ∈ groups, Fine nodes g ∧ ∀ b ∈ before, Compatible b g)
    (hpairs : groups.Pairwise Compatible) :
    ∀ entry ∈ basicViolations nodes seen groups, entry.2 = [] := by
  induction groups generalizing before seen with
  | nil => simp [basicViolations]
  | cons group groups ih =>
    obtain ⟨hgroup, hseen⟩ := @checkGroup_spec nodes _ group _ h
    obtain ⟨hfirst, hrest⟩ := List.pairwise_cons.mp hpairs
    unfold basicViolations
    intro entry hentry
    obtain rfl | hentry := List.mem_cons.mp hentry
    · exact hgroup.mpr (hfine group List.mem_cons_self)
    · apply ih hseen ?_ hrest entry hentry
      intro g hg
      obtain ⟨hg', hcompatible⟩ := hfine g (List.mem_cons_of_mem _ hg)
      refine ⟨hg', fun b hb => ?_⟩
      obtain hb | hb := List.mem_append.mp hb
      · exact hcompatible b hb
      · rw [List.mem_singleton.mp hb]
        exact hfirst g hg

/-- **What the basic checks accept.** -/
theorem basicViolations_eq_nil_iff :
    (∀ entry ∈ basicViolations nodes .empty groups, entry.2 = []) ↔
      (∀ g ∈ groups, Fine nodes g) ∧ groups.Pairwise Compatible := by
  constructor
  · intro hnone
    obtain ⟨hall, hpairs⟩ := @basicViolations_sound nodes _ groups _ seen_empty
    rw [← @map_basicViolations nodes groups .empty]
    constructor
    · intro g hg
      obtain ⟨entry, hentry, rfl⟩ := List.mem_map.mp hg
      exact (hall entry hentry (hnone entry hentry)).1
    · rw [List.pairwise_map]
      exact hpairs.imp_of_mem fun _ hsecond h => h (hnone _ hsecond)
  · rintro ⟨hfine, hpairs⟩
    apply basicViolations_complete seen_empty _ hpairs
    exact fun g hg => ⟨hfine g hg, fun b hb => absurd hb List.not_mem_nil⟩

end Basic

/-! ## The rules -/

section Rules

variable {nodes : List INode} {connectionsBySourceNode : Option IConnections}
  {nodeGroups nodeGroups' : List IWorkflowGroup}
  {getNodeType : Option (INode → Option INodeTypeDescription)}

theorem findAlreadyGroupedNodeIds_eq_nil {selectionNodeIds : List String} :
    findAlreadyGroupedNodeIds selectionNodeIds nodeGroups = [] ↔
      ∀ nodeId ∈ selectionNodeIds, ∀ g ∈ nodeGroups, nodeId ∉ g.nodeIds := by
  unfold findAlreadyGroupedNodeIds
  simp only [List.filter_eq_nil_iff, decide_eq_true_eq, List.mem_flatMap, not_exists, not_and]

/-- Nodes can be a group exactly if no other group has one of them, and the rules for the nodes
themselves accept them. -/
theorem validateNodeSelectionForGrouping_ok {connections : IConnections}
    {types : INode → Option INodeTypeDescription} :
    (∃ result, validateNodeSelectionForGrouping nodes connections types nodeGroups = .ok result) ↔
      (∀ node ∈ nodes, ∀ g ∈ nodeGroups, node.id ∉ g.nodeIds) ∧
        ∃ selection, validateConnectableNodes nodes connections types = .ok selection := by
  have hfree := @findAlreadyGroupedNodeIds_eq_nil nodeGroups (nodes.map INode.id)
  rw [List.forall_mem_map] at hfree
  unfold validateNodeSelectionForGrouping
  dsimp only
  by_cases h : findAlreadyGroupedNodeIds (nodes.map INode.id) nodeGroups = []
  · rw [if_neg (not_not_intro h), and_iff_right (hfree.mp h)]
    cases validateConnectableNodes nodes connections types with
    | error problem => simp [Functor.map, Except.map]
    | ok selection => simp [Functor.map, Except.map]
  · rw [if_pos h]
    refine iff_of_false (by simp) ?_
    rintro ⟨hall, -⟩
    exact h (hfree.mpr hall)

variable {group : IWorkflowGroup}

def groupNodes (nodes : List INode) (group : IWorkflowGroup) : List INode :=
  group.nodeIds.filterMap (nodeById nodes).get?

theorem ruleViolations_eq_nil {types : INode → Option INodeTypeDescription} :
    ruleViolations nodes connectionsBySourceNode nodeGroups (some types) group [] = [] ↔
      (∀ node ∈ groupNodes nodes group, ∀ g ∈ nodeGroups, g.id ≠ group.id → node.id ∉ g.nodeIds) ∧
        ∃ selection, validateConnectableNodes (groupNodes nodes group)
          (connectionsBySourceNode.getD .empty) types = .ok selection := by
  have hrules := @validateNodeSelectionForGrouping_ok (groupNodes nodes group)
    (nodeGroups.filter fun other => other.id ≠ group.id) (connectionsBySourceNode.getD .empty) types
  simp only [List.mem_filter, decide_eq_true_eq, and_imp] at hrules
  rw [← hrules]
  unfold ruleViolations
  dsimp only
  rw [if_neg (not_not_intro rfl), ← groupNodes]
  split
  case h_1 result heq => exact iff_of_true rfl ⟨result, heq⟩
  case h_2 problem heq =>
    refine iff_of_false (List.cons_ne_nil _ _) ?_
    rintro ⟨result, hok⟩
    exact absurd (heq.symm.trans hok) (by simp)

/-- The rules accept a group next to fewer groups. -/
theorem ruleViolations_mono (hsub : nodeGroups' ⊆ nodeGroups)
    (h : ruleViolations nodes connectionsBySourceNode nodeGroups getNodeType group [] = []) :
    ruleViolations nodes connectionsBySourceNode nodeGroups' getNodeType group [] = [] := by
  cases getNodeType with
  | none => rfl
  | some types =>
    obtain ⟨hfree, hnodes⟩ := ruleViolations_eq_nil.mp h
    apply ruleViolations_eq_nil.mpr
    exact ⟨fun node hnode g hg => hfree node hnode g (hsub hg), hnodes⟩

theorem keyed_nodeById : (nodeById nodes).Keyed INode.id :=
  OrderedMap.Keyed.empty.insertAll _

theorem exists_mem_groupNodes {nodeId : String} (hin : nodeId ∈ group.nodeIds)
    (hknown : Known nodes nodeId) : ∃ node ∈ groupNodes nodes group, node.id = nodeId := by
  obtain ⟨node, hnode⟩ := Option.isSome_iff_exists.mp hknown
  refine ⟨node, List.mem_filterMap.mpr ⟨nodeId, hin, hnode⟩, ?_⟩
  exact keyed_nodeById nodeId node hnode

end Rules

/-! ## The repair -/

section Repair

variable (nodes : List INode) (connectionsBySourceNode : Option IConnections)
  (nodeGroups : List IWorkflowGroup) (getNodeType : Option (INode → Option INodeTypeDescription))

/-- The groups that are left when those with a violation are dropped. -/
def repaired : List IWorkflowGroup :=
  (dropInvalidWorkflowGroups nodes connectionsBySourceNode nodeGroups getNodeType fun _ => true).1

def NodesApart (groups : List IWorkflowGroup) : Prop :=
  groups.Pairwise fun first second => ∀ nodeId ∈ second.nodeIds, nodeId ∉ first.nodeIds

structure Repairs : Prop where
  accepted : validateWorkflowGroups nodes connectionsBySourceNode
    (repaired nodes connectionsBySourceNode nodeGroups getNodeType) getNodeType = []
  /-- Each group has its violations, and those that have none are kept, in their order. -/
  blameless :
    (groupViolations nodes connectionsBySourceNode nodeGroups getNodeType).map Prod.fst =
      nodeGroups ∧
    repaired nodes connectionsBySourceNode nodeGroups getNodeType =
      ((groupViolations nodes connectionsBySourceNode nodeGroups getNodeType).filter
        fun entry => entry.2.1 = [] ∧ entry.2.2 = []).map Prod.fst
  again : dropInvalidWorkflowGroups nodes connectionsBySourceNode
    (repaired nodes connectionsBySourceNode nodeGroups getNodeType) getNodeType (fun _ => true) =
      (repaired nodes connectionsBySourceNode nodeGroups getNodeType, [])
  apart : validateWorkflowGroups nodes connectionsBySourceNode nodeGroups getNodeType = [] →
    NodesApart nodeGroups

/-- Everything is in order, but a group without a name shares a node with a later group. -/
structure UnnamedOverlap : Prop where
  fine : ∀ g ∈ nodeGroups, Fine nodes g
  compatible : nodeGroups.Pairwise Compatible
  overlap : ¬ nodeGroups.Pairwise fun first second =>
    first.name = "" → ∀ nodeId ∈ second.nodeIds, nodeId ∉ first.nodeIds

variable {nodes connectionsBySourceNode nodeGroups getNodeType}

theorem map_groupViolations :
    (groupViolations nodes connectionsBySourceNode nodeGroups getNodeType).map Prod.fst =
      nodeGroups := by
  unfold groupViolations
  rw [List.map_map]
  exact map_basicViolations

theorem validateWorkflowGroups_eq_nil :
    validateWorkflowGroups nodes connectionsBySourceNode nodeGroups getNodeType = [] ↔
      ∀ entry ∈ groupViolations nodes connectionsBySourceNode nodeGroups getNodeType,
        entry.2.1 = [] ∧ entry.2.2 = [] := by
  unfold validateWorkflowGroups
  simp only [List.append_eq_nil_iff, List.flatMap_eq_nil_iff, forall_and]

/-- The validator accepts groups that pass the basic checks, each of which passes the rules. -/
theorem validateWorkflowGroups_iff :
    validateWorkflowGroups nodes connectionsBySourceNode nodeGroups getNodeType = [] ↔
      ((∀ g ∈ nodeGroups, Fine nodes g) ∧ nodeGroups.Pairwise Compatible) ∧
        ∀ g ∈ nodeGroups,
          ruleViolations nodes connectionsBySourceNode nodeGroups getNodeType g [] = [] := by
  rw [validateWorkflowGroups_eq_nil, ← basicViolations_eq_nil_iff]
  unfold groupViolations
  rw [List.forall_mem_map, forall₂_and]
  refine and_congr_right fun hbasic => ?_
  conv_rhs => rw [← @map_basicViolations nodes nodeGroups .empty]
  rw [List.forall_mem_map]
  refine forall₂_congr fun entry hentry => ?_
  have hnone : entry.2 = [] := hbasic entry hentry
  rw [map_basicViolations]
  dsimp only
  rw [hnone]

theorem dropInvalidWorkflowGroups_of_valid {shouldDrop : WorkflowGroupViolation → Bool}
    (h : validateWorkflowGroups nodes connectionsBySourceNode nodeGroups getNodeType = []) :
    dropInvalidWorkflowGroups nodes connectionsBySourceNode nodeGroups getNodeType shouldDrop =
      (nodeGroups, []) := by
  have hall := validateWorkflowGroups_eq_nil.mp h
  unfold dropInvalidWorkflowGroups
  rw [h]
  refine Prod.ext ?_ rfl
  dsimp only
  rw [List.filter_eq_self.mpr, map_groupViolations]
  intro entry hentry
  obtain ⟨hbasic, hrules⟩ := hall entry hentry
  simp [hbasic, hrules]

theorem repaired_eq : repaired nodes connectionsBySourceNode nodeGroups getNodeType =
    ((groupViolations nodes connectionsBySourceNode nodeGroups getNodeType).filter
      fun entry => entry.2.1 = [] ∧ entry.2.2 = []).map Prod.fst := by
  unfold repaired dropInvalidWorkflowGroups
  dsimp only
  congr 1
  apply List.filter_congr
  rintro ⟨g, basic, rules⟩ -
  cases basic <;> cases rules <;> simp

/-- What is kept has no violation, next to all the groups. -/
theorem repaired_eq_filter : repaired nodes connectionsBySourceNode nodeGroups getNodeType =
    ((basicViolations nodes .empty nodeGroups).filter fun entry => entry.2 = [] ∧
      ruleViolations nodes connectionsBySourceNode nodeGroups getNodeType entry.1 [] = []).map
        Prod.fst := by
  rw [repaired_eq, groupViolations, List.filter_map, List.map_map]
  congr 1
  apply List.filter_congr
  rintro ⟨g, basic⟩ -
  cases basic <;> simp

/-- **The validator accepts what the repair keeps.** -/
theorem validate_kept : validateWorkflowGroups nodes connectionsBySourceNode
    (repaired nodes connectionsBySourceNode nodeGroups getNodeType) getNodeType = [] := by
  obtain ⟨hall, hpairs⟩ := @basicViolations_sound nodes _ nodeGroups _ seen_empty
  have hkept : ∀ g ∈ repaired nodes connectionsBySourceNode nodeGroups getNodeType,
      g ∈ nodeGroups ∧ Fine nodes g ∧
        ruleViolations nodes connectionsBySourceNode nodeGroups getNodeType g [] = [] := by
    intro g hg
    rw [repaired_eq_filter, List.mem_map] at hg
    obtain ⟨entry, hentry, rfl⟩ := hg
    obtain ⟨hentry, hnone⟩ := List.mem_filter.mp hentry
    obtain ⟨hbasic, hrules⟩ := of_decide_eq_true hnone
    refine ⟨?_, (hall entry hentry hbasic).1, hrules⟩
    rw [← @map_basicViolations nodes nodeGroups .empty]
    exact List.mem_map_of_mem hentry
  refine validateWorkflowGroups_iff.mpr ⟨⟨fun g hg => (hkept g hg).2.1, ?_⟩, fun g hg => ?_⟩
  · -- of two groups that are kept, the later one has been found right after the other
    rw [repaired_eq_filter, List.pairwise_map, List.pairwise_filter]
    refine hpairs.imp fun h _ hsecond => ?_
    exact h (of_decide_eq_true hsecond).1
  · exact ruleViolations_mono (fun g hg => (hkept g hg).1) (hkept g hg).2.2

theorem nodesApart_of_compatible (h : nodeGroups.Pairwise Compatible)
    (hunnamed : nodeGroups.Pairwise fun first second =>
      first.name = "" → ∀ nodeId ∈ second.nodeIds, nodeId ∉ first.nodeIds) :
    NodesApart nodeGroups := by
  refine (h.and hunnamed).imp ?_
  rintro first second ⟨hcompatible, hempty⟩
  by_cases hname : first.name = ""
  · exact hempty hname
  · exact hcompatible.apart hname

/-- Where the types of the nodes are known, the rules look at the other groups of each node. -/
theorem nodesApart_of_rules {types : INode → Option INodeTypeDescription}
    (h : validateWorkflowGroups nodes connectionsBySourceNode nodeGroups (some types) = []) :
    NodesApart nodeGroups := by
  obtain ⟨⟨hfine, hpairs⟩, hrules⟩ := validateWorkflowGroups_iff.mp h
  refine hpairs.imp_of_mem fun {first second} hfirst hsecond hcompatible nodeId hin => ?_
  obtain ⟨hfree, -⟩ := ruleViolations_eq_nil.mp (hrules second hsecond)
  obtain ⟨node, hnode, rfl⟩ := exists_mem_groupNodes hin ((hfine second hsecond).known nodeId hin)
  exact hfree node hnode first hfirst hcompatible.id

theorem apart_iff :
    (validateWorkflowGroups nodes connectionsBySourceNode nodeGroups getNodeType = [] →
      NodesApart nodeGroups) ↔ getNodeType.isSome ∨ ¬ UnnamedOverlap nodes nodeGroups := by
  cases getNodeType with
  | some types => exact iff_of_true nodesApart_of_rules (.inl rfl)
  | none =>
    rw [or_iff_right (by simp), validateWorkflowGroups_iff]
    constructor
    · rintro h ⟨hfine, hcompatible, hoverlap⟩
      apply hoverlap
      have hapart := h ⟨⟨hfine, hcompatible⟩, fun g _ => rfl⟩
      refine hapart.imp ?_
      intro first second hpair _
      exact hpair
    · rintro hno ⟨⟨hfine, hcompatible⟩, -⟩
      apply nodesApart_of_compatible hcompatible
      by_contra hoverlap
      exact hno ⟨hfine, hcompatible, hoverlap⟩

/-- **The repair.** The groups that are kept are accepted, every group without a violation is among
them, and a second repair changes nothing. That no node of accepted groups is in two of them fails
exactly for a group without a name, where only the basic checks run. -/
theorem repairs_iff (nodes : List INode) (connectionsBySourceNode : Option IConnections)
    (nodeGroups : List IWorkflowGroup)
    (getNodeType : Option (INode → Option INodeTypeDescription)) :
    Repairs nodes connectionsBySourceNode nodeGroups getNodeType ↔
      getNodeType.isSome ∨ ¬ UnnamedOverlap nodes nodeGroups := by
  rw [← @apart_iff nodes connectionsBySourceNode]
  refine ⟨Repairs.apart, fun hapart => ⟨validate_kept, ?_, ?_, hapart⟩⟩
  · exact ⟨map_groupViolations, repaired_eq⟩
  · exact dropInvalidWorkflowGroups_of_valid validate_kept

/-- A node is in a group without a name and in another one, and the basic checks accept both. -/
theorem not_repairs : ¬ Repairs [⟨"n1", "Set", "n8n-nodes-base.set"⟩] none
    [⟨"g1", "", none, ["n1"]⟩, ⟨"g2", "Second", none, ["n1"]⟩] none := by
  intro h
  obtain ⟨hpair, -⟩ := List.pairwise_cons.mp (h.apart (by decide))
  exact hpair _ (List.mem_singleton_self _) "n1" (List.mem_singleton_self _)
    (List.mem_singleton_self _)

end Repair

end N8n.Workflows
