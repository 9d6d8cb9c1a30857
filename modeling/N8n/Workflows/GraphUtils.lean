import N8n.Foundations.StackSearch
import N8n.Workflows.Connections

/-!
# Extractable selections

A selection of nodes can be moved to a sub-workflow if what enters it from outside enters at one
node, what leaves it leaves from one node, and there is a path from the one to the other.
`parseExtractableSubgraphSelection` looks for these nodes.

## Main definitions

* `buildAdjacencyList`: the connections of a workflow by source node
* `hasPath`: the search for a path of `main` connections
* `parseExtractableSubgraphSelection`: the start and the end of a selection, or what is wrong with it

## Main results

* `hasPath_iff`: the search ends, and it finds the paths there are
* `extractable`: what holds of a selection that has a start and an end
-/

namespace N8n.Workflows

open OrderedSet

open ComponentSearch (Reach)

/-! ## Edges of a selection -/

/-- The connections out of each node. -/
abbrev IConnectionAdjacencyList := OrderedMap String (List IConnection)

inductive ExtractableErrorResult
  | multipleInputNodes (nodes : OrderedSet String)
  | multipleOutputNodes (nodes : OrderedSet String)
  | inputEdgeToNonRootNode (node : String)
  | outputEdgeFromNonLeafNode (node : String)
  | noContinuousPathFromRootToLeaf (start «end» : String)
  deriving DecidableEq

def buildAdjacencyList (connectionsBySourceNode : IConnections) : IConnectionAdjacencyList :=
  (objectEntries connectionsBySourceNode).foldl (fun result (sourceNode, byType) =>
    (objectEntries byType).foldl (fun result (_, outputs) =>
      (outputs.flatMap fun connections => connections.getD []).foldl (fun result connection =>
        result.set sourceNode ((result.get? sourceNode).getD [] ++ [connection])) result) result)
    .empty

section Edges

variable (graphIds : OrderedSet String) (adjacencyList : IConnectionAdjacencyList)

/-- All edges leading into the graph. -/
def getInputEdges : List (String × IConnection) :=
  adjacencyList.entries.flatMap fun («from», tos) =>
    if «from» ∈ graphIds then []
    else (tos.filter fun x => x.node ∈ graphIds).map fun x => («from», x)

/-- All edges leading out of the graph. -/
def getOutputEdges : List (String × IConnection) :=
  adjacencyList.entries.flatMap fun («from», tos) =>
    if «from» ∈ graphIds then (tos.filter fun x => x.node ∉ graphIds).map fun x => («from», x)
    else []

/-- The nodes that `main` connections out of a node lead to. -/
def mainTargets (nodeId : String) : List String :=
  (((adjacencyList.get? nodeId).getD []).filter fun x => x.type = "main").map IConnection.node

/-- The nodes that `main` connections out of a node lead to, without the node itself. -/
def otherTargets (nodeId : String) : OrderedSet String :=
  .ofList ((((adjacencyList.get? nodeId).getD []).filter fun x =>
    x.type = "main" ∧ x.node ≠ nodeId).map IConnection.node)

def getRootNodes : OrderedSet String :=
  graphIds.diff (graphIds.elements.foldl (fun innerNodes nodeId =>
    innerNodes.union (otherTargets adjacencyList nodeId)) .empty)

def getLeafNodes : OrderedSet String :=
  graphIds.elements.foldl (fun result nodeId =>
    if ((otherTargets adjacencyList nodeId).inter graphIds).size = 0 then result.insert nodeId
    else result) .empty

end Edges

/-! ## The search for a path -/

section Path

variable (adjacencyList : IConnectionAdjacencyList)

def searchNodes (start : String) : List String :=
  start :: adjacencyList.values.flatMap fun tos => tos.map IConnection.node

/-- The search takes a node off the stack, compares it with `end`, and pushes its targets that are
not seen. -/
def hasPathWithin (fuel : ℕ) (start «end» : String) : Option Bool :=
  StackSearch.search (mainTargets adjacencyList) «end» fuel (StackSearch.start start)

def hasPath (start «end» : String) : Bool :=
  (hasPathWithin adjacencyList (2 * (searchNodes adjacencyList start).length ^ 2 + 2) start
    «end»).getD false

end Path

/-! ## Selections -/

structure ExtractableSubgraphData where
  start : Option String
  «end» : Option String
  deriving DecidableEq

/-- Whether a value is truthy, for a name or `undefined`. -/
def truthy (name : Option String) : Bool := name.any (· ≠ "")

/-- The nodes where a selection is entered. What comes in through other types of connections, like
those of sub-nodes, does not count. -/
def getInputNodes (graphIds : OrderedSet String) (adjacencyList : IConnectionAdjacencyList) :
    OrderedSet String :=
  .ofList (((getInputEdges graphIds adjacencyList).filter fun x => x.2.type = "main").map
    fun x => x.2.node)

/-- The nodes where a selection is left. -/
def getOutputNodes (graphIds : OrderedSet String) (adjacencyList : IConnectionAdjacencyList) :
    OrderedSet String :=
  .ofList (((getOutputEdges graphIds adjacencyList).filter fun x => x.2.type = "main").map
    fun x => x.1)

/-- One side of a selection: its boundary nodes have to be among the candidates, of which none is
needed if there is one node, and there may be one node at most. -/
def checkSide (candidates nodes : OrderedSet String)
    (notCandidate : String → ExtractableErrorResult)
    (multiple : OrderedSet String → ExtractableErrorResult) :
    List ExtractableErrorResult × Option String :=
  let candidates := if candidates.size = 0 ∧ nodes.size = 1 then nodes else candidates
  let both := candidates.inter nodes
  ((nodes.diff candidates).elements.map notCandidate ++
    if 1 < both.size then [multiple both] else [], both.first?)

def checkPath (adjacencyList : IConnectionAdjacencyList) (start «end» : Option String) :
    List ExtractableErrorResult :=
  if truthy start ∧ truthy «end» ∧
      hasPath adjacencyList (start.getD "") («end».getD "") = false then
    [.noContinuousPathFromRootToLeaf (start.getD "") («end».getD "")]
  else []

def parseExtractableSubgraphSelection (graphIds : OrderedSet String)
    (adjacencyList : IConnectionAdjacencyList) :
    Except (List ExtractableErrorResult) ExtractableSubgraphData :=
  let (inputErrors, start) := checkSide (getRootNodes graphIds adjacencyList)
    (getInputNodes graphIds adjacencyList) .inputEdgeToNonRootNode .multipleInputNodes
  let (outputErrors, «end») := checkSide (getLeafNodes graphIds adjacencyList)
    (getOutputNodes graphIds adjacencyList) .outputEdgeFromNonLeafNode .multipleOutputNodes
  let errors := inputErrors ++ outputErrors ++ checkPath adjacencyList start «end»
  if errors = [] then .ok ⟨start, «end»⟩ else .error errors

/-! ## The paths of the search -/

section Path

variable {adjacencyList : IConnectionAdjacencyList}

theorem mem_mainTargets {a b : String} : b ∈ mainTargets adjacencyList a ↔
    ∃ tos, adjacencyList.get? a = some tos ∧ ∃ x ∈ tos, x.type = "main" ∧ x.node = b := by
  rw [mainTargets]
  cases adjacencyList.get? a with
  | none => simp
  | some tos => simp [and_assoc]

theorem mainTargets_subset {start a b : String} (h : b ∈ mainTargets adjacencyList a) :
    b ∈ searchNodes adjacencyList start := by
  obtain ⟨tos, hget, x, hx, -, rfl⟩ := mem_mainTargets.mp h
  refine List.mem_cons_of_mem start (List.mem_flatMap.mpr ⟨tos, ?_, List.mem_map_of_mem hx⟩)
  exact OrderedMap.mem_values.mpr ⟨a, hget⟩

theorem hasPathWithin_isSome (adjacencyList : IConnectionAdjacencyList) (start «end» : String)
    {fuel : ℕ} (hf : 2 * (searchNodes adjacencyList start).length ^ 2 + 2 ≤ fuel) :
    (hasPathWithin adjacencyList fuel start «end»).isSome := by
  refine StackSearch.search_isSome (searchNodes adjacencyList start).toFinset
    (fun a b hb => List.mem_toFinset.mpr (mainTargets_subset hb)) ?_ ?_
  · intro a ha
    obtain rfl := List.mem_singleton.mp ha
    exact List.mem_toFinset.mpr List.mem_cons_self
  · have hc := Nat.pow_le_pow_left (List.toFinset_card_le (searchNodes adjacencyList start)) 2
    have hp := StackSearch.potential_start_le (searchNodes adjacencyList start).toFinset start
    rw [Nat.mul_assoc, ← sq] at hp
    omega

/-- **The search ends**, and it finds the paths there are. -/
theorem hasPath_iff {start «end» : String} :
    hasPath adjacencyList start «end» = true ↔ Reach (mainTargets adjacencyList) start «end» := by
  obtain ⟨found, hfound⟩ := Option.isSome_iff_exists.mp
    (hasPathWithin_isSome adjacencyList start «end» le_rfl)
  rw [hasPath, hfound]
  exact StackSearch.search_iff hfound

end Path

/-! ## What holds of a selection that is accepted -/

section Selection

variable {graphIds : OrderedSet String} {adjacencyList : IConnectionAdjacencyList}
  {data : ExtractableSubgraphData}

/-- There is such a connection out of a node. -/
def Connects (adjacencyList : IConnectionAdjacencyList) («from» : String) (x : IConnection) : Prop :=
  ∃ tos, adjacencyList.get? «from» = some tos ∧ x ∈ tos

theorem connects_iff {«from» : String} {x : IConnection} : Connects adjacencyList «from» x ↔
    ∃ tos, («from», tos) ∈ adjacencyList.entries ∧ x ∈ tos := by
  simp only [Connects, OrderedMap.get?_eq_some]

theorem mem_getInputNodes {node : String} : node ∈ getInputNodes graphIds adjacencyList ↔
    ∃ «from» x, Connects adjacencyList «from» x ∧ «from» ∉ graphIds ∧ x.node ∈ graphIds ∧
      x.type = "main" ∧ x.node = node := by
  simp only [getInputNodes, getInputEdges, mem_ofList, List.mem_map, List.mem_filter,
    List.mem_flatMap, connects_iff]
  constructor
  · rintro ⟨⟨«from», x⟩, ⟨⟨⟨from', tos⟩, htos, hx⟩, ht⟩, rfl⟩
    simp only at hx
    split_ifs at hx with hf
    · cases hx
    · obtain ⟨x', hx', he⟩ := List.mem_map.mp hx
      obtain ⟨rfl, rfl⟩ := Prod.mk.inj he
      obtain ⟨hmem, hin⟩ := List.mem_filter.mp hx'
      exact ⟨from', x', ⟨tos, htos, hmem⟩, hf, by simpa using hin, by simpa using ht, rfl⟩
  · rintro ⟨«from», x, ⟨tos, htos, hx⟩, hf, hin, ht, rfl⟩
    refine ⟨(«from», x), ⟨⟨(«from», tos), htos, ?_⟩, by simpa using ht⟩, rfl⟩
    simp only [hf, if_false]
    exact List.mem_map.mpr ⟨x, List.mem_filter.mpr ⟨hx, by simpa using hin⟩, rfl⟩

theorem mem_getOutputNodes {node : String} : node ∈ getOutputNodes graphIds adjacencyList ↔
    node ∈ graphIds ∧ ∃ x, Connects adjacencyList node x ∧ x.node ∉ graphIds ∧ x.type = "main" := by
  simp only [getOutputNodes, getOutputEdges, mem_ofList, List.mem_map, List.mem_filter,
    List.mem_flatMap, connects_iff]
  constructor
  · rintro ⟨⟨«from», x⟩, ⟨⟨⟨from', tos⟩, htos, hx⟩, ht⟩, rfl⟩
    simp only at hx
    split_ifs at hx with hf
    · obtain ⟨x', hx', he⟩ := List.mem_map.mp hx
      obtain ⟨rfl, rfl⟩ := Prod.mk.inj he
      obtain ⟨hmem, hin⟩ := List.mem_filter.mp hx'
      exact ⟨hf, x', ⟨tos, htos, hmem⟩, by simpa using hin, by simpa using ht⟩
    · cases hx
  · rintro ⟨hf, x, ⟨tos, htos, hx⟩, hin, ht⟩
    refine ⟨(node, x), ⟨⟨(node, tos), htos, ?_⟩, by simpa using ht⟩, rfl⟩
    simp only [hf, if_true]
    exact List.mem_map.mpr ⟨x, List.mem_filter.mpr ⟨hx, by simpa using hin⟩, rfl⟩

/-- A side without errors has at most one node, and it is the one that is returned. -/
theorem checkSide_ok {candidates nodes : OrderedSet String}
    {notCandidate : String → ExtractableErrorResult}
    {multiple : OrderedSet String → ExtractableErrorResult} {first : Option String}
    (h : checkSide candidates nodes notCandidate multiple = ([], first)) (node : String) :
    node ∈ nodes ↔ first = some node := by
  obtain ⟨candidates', hc⟩ : ∃ c, c = if candidates.size = 0 ∧ nodes.size = 1 then nodes
    else candidates := ⟨_, rfl⟩
  rw [checkSide, ← hc] at h
  obtain ⟨herrors, rfl⟩ := Prod.mk.inj h
  obtain ⟨hdiff, hone⟩ := List.append_eq_nil_iff.mp herrors
  have hall : ∀ n ∈ nodes, n ∈ candidates'.inter nodes := by
    intro n hn
    refine mem_inter.mpr ⟨by_contra fun hnc => ?_, hn⟩
    have hd : n ∈ nodes.diff candidates' := mem_diff.mpr ⟨hn, hnc⟩
    rw [mem_def, List.map_eq_nil_iff.mp hdiff] at hd
    cases hd
  have hsize : (candidates'.inter nodes).size ≤ 1 := by
    by_contra hlt
    rw [if_pos (not_le.mp hlt)] at hone
    cases hone
  constructor
  · intro hn
    cases hf : (candidates'.inter nodes).first? with
    | none =>
      have := hall node hn
      rw [mem_def, List.head?_eq_none_iff.mp hf] at this
      cases this
    | some n => rw [eq_of_size_le_one hsize hf (hall node hn)]
  · intro hf
    exact (mem_inter.mp (mem_of_first? hf)).2

/-- What an accepted selection says about its boundary. -/
structure Boundary (graphIds : OrderedSet String) (adjacencyList : IConnectionAdjacencyList)
    (data : ExtractableSubgraphData) : Prop where
  input : ∀ node, node ∈ getInputNodes graphIds adjacencyList ↔ data.start = some node
  output : ∀ node, node ∈ getOutputNodes graphIds adjacencyList ↔ data.end = some node
  path : ∀ start «end», data.start = some start → data.end = some «end» → start ≠ "" → «end» ≠ "" →
    Reach (mainTargets adjacencyList) start «end»

theorem parse_ok (h : parseExtractableSubgraphSelection graphIds adjacencyList = .ok data) :
    Boundary graphIds adjacencyList data := by
  rw [parseExtractableSubgraphSelection] at h
  rcases hin : checkSide (getRootNodes graphIds adjacencyList)
    (getInputNodes graphIds adjacencyList) .inputEdgeToNonRootNode .multipleInputNodes
    with ⟨inputErrors, start⟩
  rcases hout : checkSide (getLeafNodes graphIds adjacencyList)
    (getOutputNodes graphIds adjacencyList) .outputEdgeFromNonLeafNode .multipleOutputNodes
    with ⟨outputErrors, «end»⟩
  simp only [hin, hout] at h
  split_ifs at h with herrors
  cases h
  obtain ⟨hsides, hpath⟩ := List.append_eq_nil_iff.mp herrors
  obtain ⟨rfl, rfl⟩ := List.append_eq_nil_iff.mp hsides
  refine ⟨checkSide_ok hin, checkSide_ok hout, ?_⟩
  rintro s e hs he hne hne'
  obtain rfl : start = some s := hs
  obtain rfl : «end» = some e := he
  refine hasPath_iff.mp (Bool.not_eq_false _ |>.mp fun hf => ?_)
  rw [checkPath, if_pos ⟨by simpa [truthy] using hne, by simpa [truthy] using hne', hf⟩] at hpath
  cases hpath

/-- There is a path of `main` connections between two nodes that stays inside the selection. -/
def PathInside (graphIds : OrderedSet String) (adjacencyList : IConnectionAdjacencyList) :
    String → String → Prop :=
  Relation.ReflTransGen fun a b =>
    a ∈ graphIds ∧ b ∈ graphIds ∧ ∃ x, Connects adjacencyList a x ∧ x.type = "main" ∧ x.node = b

/-- What is reached from the start is reached inside the selection, unless the end was passed. -/
theorem Boundary.inside (h : Boundary graphIds adjacencyList data) {start node : String}
    (hstart : start ∈ graphIds) (hr : Reach (mainTargets adjacencyList) start node) :
    (∃ «end», data.end = some «end» ∧ PathInside graphIds adjacencyList start «end») ∨
      (node ∈ graphIds ∧ PathInside graphIds adjacencyList start node) := by
  induction hr with
  | refl => exact .inr ⟨hstart, .refl⟩
  | @tail b c _ hc ih =>
    rcases ih with hend | ⟨hb, hpath⟩
    · exact .inl hend
    · obtain ⟨tos, hget, x, hx, ht, rfl⟩ := mem_mainTargets.mp hc
      by_cases hin : x.node ∈ graphIds
      · exact .inr ⟨hin, hpath.tail ⟨hb, hin, x, ⟨tos, hget, hx⟩, ht, rfl⟩⟩
      · -- the selection is left, which happens at its end only
        have hout := (h.output b).mp (mem_getOutputNodes.mpr ⟨hb, x, ⟨tos, hget, hx⟩, hin, ht⟩)
        exact .inl ⟨b, hout, hpath⟩

/-- **A selection with a start and an end** can be extracted: every `main` connection from outside
leads to the start, every one to the outside comes from the end, and there is a path inside from the
one to the other, as long as they have a name. The search for a path ends on every graph. -/
theorem extractable (graphIds : OrderedSet String) (adjacencyList : IConnectionAdjacencyList) :
    (∀ start «end», parseExtractableSubgraphSelection graphIds adjacencyList =
        .ok ⟨some start, some «end»⟩ →
      (∀ «from» x, Connects adjacencyList «from» x → x.type = "main" → «from» ∉ graphIds →
        x.node ∈ graphIds → x.node = start) ∧
      (∀ «from» x, Connects adjacencyList «from» x → x.type = "main" → «from» ∈ graphIds →
        x.node ∉ graphIds → «from» = «end») ∧
      (start ≠ "" → «end» ≠ "" → PathInside graphIds adjacencyList start «end»)) ∧
    ∀ a b, ∃ fuel, hasPathWithin adjacencyList fuel a b = some (hasPath adjacencyList a b) := by
  refine ⟨fun start «end» h => ?_, fun a b => ?_⟩
  · have hb := parse_ok h
    refine ⟨fun «from» x hx ht hf hin => ?_, fun «from» x hx ht hf hout => ?_, fun hs he => ?_⟩
    · have := (hb.input x.node).mp (mem_getInputNodes.mpr ⟨«from», x, hx, hf, hin, ht, rfl⟩)
      exact (Option.some.inj this).symm
    · have := (hb.output «from»).mp (mem_getOutputNodes.mpr ⟨hf, x, hx, hout, ht⟩)
      exact (Option.some.inj this).symm
    · obtain ⟨_, x, -, -, hin, -, rfl⟩ := mem_getInputNodes.mp ((hb.input start).mpr rfl)
      rcases hb.inside hin (hb.path _ «end» rfl rfl hs he) with ⟨_, hend, hpath⟩ | ⟨-, hpath⟩
      · exact Option.some.inj hend ▸ hpath
      · exact hpath
  · obtain ⟨found, hfound⟩ := Option.isSome_iff_exists.mp
      (hasPathWithin_isSome adjacencyList a b le_rfl)
    exact ⟨_, by rw [hasPath, hfound, Option.getD_some]⟩

/-- A tool of the second node is shared with a node outside. -/
def sharedTool : IConnectionAdjacencyList :=
  ((OrderedMap.empty.set "trigger" [⟨"agent", "main", 0⟩, ⟨"reply", "ai_tool", 0⟩]).set "agent"
    [⟨"reply", "main", 0⟩]).set "reply" [⟨"log", "main", 0⟩]

theorem extractable_sharedTool :
    PathInside (.ofList ["agent", "reply"]) sharedTool "agent" "reply" := by
  have hok : parseExtractableSubgraphSelection (.ofList ["agent", "reply"]) sharedTool =
      .ok ⟨some "agent", some "reply"⟩ := by decide
  have h := (extractable (.ofList ["agent", "reply"]) sharedTool).1 "agent" "reply" hok
  exact h.2.2 (by decide) (by decide)

/-- A connection that is not a `main` one can enter a selection elsewhere than at its start. -/
theorem exists_entry_elsewhere :
    parseExtractableSubgraphSelection (.ofList ["agent", "reply"]) sharedTool =
        .ok ⟨some "agent", some "reply"⟩ ∧
      ∃ «from» x, Connects sharedTool «from» x ∧ «from» ∉ OrderedSet.ofList ["agent", "reply"] ∧
        x.node ∈ OrderedSet.ofList ["agent", "reply"] ∧ x.node ≠ "agent" :=
  ⟨by decide, "trigger", ⟨"reply", "ai_tool", 0⟩, ⟨_, rfl, by simp⟩, by decide, by decide,
    by decide⟩

end Selection

end N8n.Workflows
