import N8n.Foundations.MemoSearch
import N8n.Workflows.Connections

/-!
# Connected nodes

Two searches over the connections of a workflow: `getConnectedNodes` goes depth first and can be
limited to a number of hops and to some types of connection, `searchNodesBFS` goes level by level
along the main connections. Both ask objects that hold the names of nodes as keys whether they have
a key of their own, by a method of these objects, and the second remembers what it has visited in a
plain object.

## Main definitions

* `getConnectedNodes`, `searchNodesBFS`: the searches
* `Linked`: a connection of a followed type leads from one node to another
* `FindsConnected`: both searches find the nodes within the hops
* `Searchable`: no node that a search looks at has a name that its objects cannot hold

## Main results

* `findsConnected_iff`: exactly when the searches find the nodes within the hops
* `not_findsConnected`: a node is called like the method
-/

namespace N8n.Workflows

open OrderedMap

open Failure (bind_eq_ok)
open MemoSearch (Budget Hops collect)
open WorkflowExecute (objectKeys)

/-! ## The searches -/

/-- `object.hasOwnProperty(key)`, where a key of the object may stand in for the method. -/
def hasOwnProperty {ν : Type} (object : OrderedMap String ν) (key : String) : Except String Bool :=
  if "hasOwnProperty" ∈ object.keys then .error "hasOwnProperty is not a function"
  else .ok (object.get? key).isSome

inductive ConnectionFilter
  | all
  | allNonMain
  | type (type : String)
  deriving DecidableEq

def ConnectionFilter.types (filter : ConnectionFilter) (byType : INodeConnections) : List String :=
  match filter with
  | .all => objectKeys byType.keys
  | .allNonMain => (objectKeys byType.keys).filter (· ≠ "main")
  | .type name => [name]

def connectionsOf (byType : INodeConnections) (type : String) :
    Except String (List IConnection) := do
  if ← hasOwnProperty byType type then
    pure (((byType.get? type).getD []).flatMap fun connections => connections.getD [])
  else pure []

def connectionsFrom (filter : ConnectionFilter) (connections : IConnections) (nodeName : String) :
    Except String (Option (List IConnection)) := do
  if ← hasOwnProperty connections nodeName then
    let byType := (connections.get? nodeName).getD .empty
    let followed ← (filter.types byType).mapM (connectionsOf byType)
    pure (some followed.flatten)
  else pure none

def nodesFrom (filter : ConnectionFilter) (connections : IConnections) (nodeName : String) :
    Except String (Option (List String)) :=
  Option.map (List.map IConnection.node) <$> connectionsFrom filter connections nodeName

/-- The depths that are left: `-1` stays as it is, and no negative depth comes to 0. -/
def depths : Budget ℤ where
  spent depth := depth = 0
  next depth := if depth = -1 then depth else depth - 1
  hops depth := if depth < 0 then ⊤ else depth.toNat
  spent_iff depth := by
    rw [decide_eq_true_eq]
    split
    case isTrue h => simp; omega
    case isFalse h => simp; omega
  hops_next depth h := by
    have h := of_decide_eq_false h
    by_cases hneg : depth < 0
    · have hnext : (if depth = -1 then depth else depth - 1) < 0 := by split <;> omega
      rw [if_pos hneg, if_pos hnext]
      rfl
    · have hnext : (if depth = -1 then depth else depth - 1) = depth - 1 := by
        rw [if_neg (by omega)]
      rw [hnext, if_neg hneg, if_neg (by omega)]
      exact_mod_cast (by omega : (depth - 1).toNat + 1 = depth.toNat)

def getConnectedNodes (connections : IConnections) (nodeName : String)
    (connectionType : ConnectionFilter) (depth : ℤ) : Except String (List String) :=
  Prod.fst <$> collect "the call stack is full" (nodesFrom connectionType connections) depths
    (connections.keys.length + 1) depth nodeName [] .empty

structure IConnectedNode where
  name : String
  indicies : List ℕ
  depth : ℕ

structure Searched where
  visited : OrderedMap String IConnectedNode
  returnConns : List String

/-- A turn of the inner loop; the queue is the one for the next level. Under an inherited name the
object `visited` has a property that is not a node. -/
def visitNode (connections : IConnections) (sourceNode : String) (depth : ℕ)
    (s : Searched × List IConnectedNode) (curr : IConnectedNode) :
    Except String (Searched × List IConnectedNode) :=
  if curr.name ∈ objectPrototypeNames then
    .error "Cannot read properties of undefined (reading 'concat')"
  else
    match s.1.visited.get? curr.name with
    | some known =>
      let indicies := (known.indicies ++ curr.indicies).eraseDups
      .ok ({ s.1 with visited := s.1.visited.set curr.name { known with indicies } }, s.2)
    | none => do
      let visited := s.1.visited.set curr.name curr
      let returnConns := if curr.name ≠ sourceNode then s.1.returnConns ++ [curr.name]
        else s.1.returnConns
      let followed ← connectionsFrom (.type "main") connections curr.name
      let queue := s.2 ++ (followed.getD []).map fun connection =>
        ⟨connection.node, [connection.index], depth⟩
      pure (⟨visited, returnConns⟩, queue)

/-- The levels; `fuel` bounds their number. -/
def searchLevels (connections : IConnections) (sourceNode : String) (maxDepth : ℤ) :
    ℕ → ℕ → List IConnectedNode → Searched → Except String Searched
  | 0, _, _, _ => .error "the search does not end"
  | fuel + 1, depth, queue, s =>
    if queue = [] ∨ maxDepth ≠ -1 ∧ maxDepth < depth then .ok s
    else do
      let next ← queue.foldlM (visitNode connections sourceNode (depth + 1)) (s, [])
      searchLevels connections sourceNode maxDepth fuel (depth + 1) next.2 next.1

attribute [grind =] searchLevels

def searchNodesBFS (connections : IConnections) (sourceNode : String) (maxDepth : ℤ) :
    Except String (List IConnectedNode) :=
  (fun s => s.returnConns.filterMap s.visited.get?) <$>
    searchLevels connections sourceNode maxDepth (connections.keys.length + 2) 0
      [⟨sourceNode, [], 0⟩] ⟨.empty, []⟩

/-! ## What they are for -/

def ConnectionFilter.Follows (filter : ConnectionFilter) (connectionType : String) : Prop :=
  match filter with
  | .all => True
  | .allNonMain => connectionType ≠ "main"
  | .type name => connectionType = name

/-- A connection of a followed type leads from `a` to `b`. -/
def Linked (filter : ConnectionFilter) (connections : IConnections) (a b : String) : Prop :=
  ∃ byType, connections.get? a = some byType ∧ ∃ connectionType outputs,
    byType.get? connectionType = some outputs ∧ filter.Follows connectionType ∧
      ∃ slot ∈ outputs, ∃ connection ∈ slot.getD [], connection.node = b

/-- Objects that are asked about the node have no key that stands in for the method. -/
def Readable (connections : IConnections) (nodeName : String) : Prop :=
  "hasOwnProperty" ∉ connections.keys ∧
    ∀ byType, connections.get? nodeName = some byType → "hasOwnProperty" ∉ byType.keys

/-! ## Looking at a node -/

section Look

variable {filter : ConnectionFilter} {connections : IConnections} {nodeName : String}
  {byType : INodeConnections}

theorem hasOwnProperty_eq {ν : Type} {object : OrderedMap String ν}
    (h : "hasOwnProperty" ∉ object.keys) (key : String) :
    hasOwnProperty object key = .ok (object.get? key).isSome := if_neg h

theorem mem_types {connectionType : String} (h : connectionType ∈ byType.keys) :
    connectionType ∈ filter.types byType ↔ filter.Follows connectionType := by
  cases filter with
  | all => exact iff_of_true (mem_objectKeys.mpr h) trivial
  | allNonMain =>
    simp only [ConnectionFilter.types, List.mem_filter, mem_objectKeys, decide_eq_true_eq]
    exact and_iff_right h
  | type name => exact List.mem_singleton

/-- What `connectionsOf` returns. -/
def connectionsIn (byType : INodeConnections) (connectionType : String) : List IConnection :=
  ((byType.get? connectionType).getD []).flatMap fun slot => slot.getD []

theorem connectionsOf_eq (h : "hasOwnProperty" ∉ byType.keys) (connectionType : String) :
    connectionsOf byType connectionType = .ok (connectionsIn byType connectionType) := by
  rw [connectionsOf, hasOwnProperty_eq h, connectionsIn]
  cases byType.get? connectionType <;> rfl

theorem connectionsFrom_eq (h : Readable connections nodeName) :
    connectionsFrom filter connections nodeName = .ok ((connections.get? nodeName).map fun byType =>
      (filter.types byType).flatMap (connectionsIn byType)) := by
  rw [connectionsFrom, hasOwnProperty_eq h.1]
  cases hget : connections.get? nodeName with
  | none => rfl
  | some byType =>
    have hrun : (filter.types byType).mapM (connectionsOf byType) =
        .ok ((filter.types byType).map (connectionsIn byType)) := by
      rw [funext (connectionsOf_eq (h.2 byType hget))]
      exact List.mapM_pure
    simp only [Option.isSome_some, Option.getD_some, bind, Except.bind, if_true, hrun]
    rfl

theorem mapM_error {types : List String} (hne : types ≠ []) {e : String}
    (h : ∀ connectionType ∈ types, connectionsOf byType connectionType = .error e) :
    types.mapM (connectionsOf byType) = .error e := by
  cases types with
  | nil => exact absurd rfl hne
  | cons connectionType types =>
    rw [List.mapM_cons, h connectionType List.mem_cons_self]
    rfl

/-- Looking at a node succeeds exactly where no key stands in for the method. -/
theorem exists_connectionsFrom :
    (∃ o, connectionsFrom filter connections nodeName = .ok o) ↔ Readable connections nodeName := by
  refine ⟨fun ⟨o, h⟩ => ?_, fun h => ⟨_, connectionsFrom_eq h⟩⟩
  obtain ⟨own, hown, h⟩ := bind_eq_ok.mp h
  have hkeys : "hasOwnProperty" ∉ connections.keys := by
    intro hin
    rw [hasOwnProperty, if_pos hin] at hown
    cases hown
  refine ⟨hkeys, fun byType hget hin => ?_⟩
  rw [hasOwnProperty_eq hkeys, hget] at hown
  cases hown
  rw [Option.isSome_some, if_pos rfl, hget, Option.getD_some] at h
  -- the key is one of the types, so there is a first one to ask for
  have hne : filter.types byType ≠ [] := by
    cases filter with
    | all => exact List.ne_nil_of_mem (mem_objectKeys.mpr hin)
    | allNonMain =>
      exact List.ne_nil_of_mem (List.mem_filter.mpr ⟨mem_objectKeys.mpr hin, by decide⟩)
    | type name => exact List.cons_ne_nil _ _
  have hfails : ∀ connectionType ∈ filter.types byType,
      connectionsOf byType connectionType = .error "hasOwnProperty is not a function" := by
    intro connectionType _
    rw [connectionsOf, hasOwnProperty, if_pos hin]
    rfl
  dsimp only at h
  rw [mapM_error hne hfails] at h
  cases h

theorem mem_connectionsFrom {b : String} : (∃ connection ∈ ((connections.get? nodeName).map
    fun byType => (filter.types byType).flatMap (connectionsIn byType)).getD [],
      connection.node = b) ↔ Linked filter connections nodeName b := by
  cases hget : connections.get? nodeName with
  | none =>
    refine ⟨fun ⟨_, hin, _⟩ => absurd hin List.not_mem_nil, fun ⟨_, hget', _⟩ => ?_⟩
    rw [hget] at hget'
    cases hget'
  | some byType =>
    simp only [Option.map_some, Option.getD_some, List.mem_flatMap, connectionsIn]
    constructor
    · rintro ⟨connection, ⟨connectionType, htype, slot, hslot, hin⟩, hnode⟩
      cases houtputs : byType.get? connectionType with
      | none =>
        rw [houtputs] at hslot
        exact absurd hslot List.not_mem_nil
      | some outputs =>
        rw [houtputs] at hslot
        have hkey : connectionType ∈ byType.keys := mem_keys.mpr ⟨outputs, houtputs⟩
        exact ⟨byType, hget, connectionType, outputs, houtputs, (mem_types hkey).mp htype, slot,
          hslot, connection, hin, hnode⟩
    · rintro ⟨byType', hget', connectionType, outputs, houtputs, hfollows, slot, hslot, connection,
        hin, hnode⟩
      obtain rfl := Option.some.inj (hget.symm.trans hget')
      have hkey : connectionType ∈ byType.keys := mem_keys.mpr ⟨outputs, houtputs⟩
      refine ⟨connection, ⟨connectionType, (mem_types hkey).mpr hfollows, slot, ?_, hin⟩, hnode⟩
      rw [houtputs]
      exact hslot

theorem exists_nodesFrom :
    (∃ o, nodesFrom filter connections nodeName = .ok o) ↔ Readable connections nodeName := by
  rw [← @exists_connectionsFrom filter]
  unfold nodesFrom
  cases connectionsFrom filter connections nodeName with
  | error e =>
    constructor <;> rintro ⟨_, h⟩ <;> cases h
  | ok o => exact ⟨fun _ => ⟨o, rfl⟩, fun _ => ⟨_, rfl⟩⟩

theorem nodesFrom_eq (h : Readable connections nodeName) :
    nodesFrom filter connections nodeName = .ok ((connections.get? nodeName).map fun byType =>
      ((filter.types byType).flatMap (connectionsIn byType)).map IConnection.node) := by
  rw [nodesFrom, connectionsFrom_eq h]
  cases connections.get? nodeName <;> rfl

/-- A node with connections to follow is a key. -/
theorem mem_keys_of_nodesFrom {children : List String}
    (h : nodesFrom filter connections nodeName = .ok (some children)) :
    nodeName ∈ connections.keys := by
  rw [nodesFrom_eq (exists_nodesFrom.1 ⟨_, h⟩)] at h
  obtain ⟨byType, hget, -⟩ := Option.map_eq_some_iff.mp (Except.ok.inj h)
  exact mem_keys.mpr ⟨byType, hget⟩

theorem step_iff {b : String} : MemoSearch.Step (nodesFrom filter connections) nodeName b ↔
    Readable connections nodeName ∧ Linked filter connections nodeName b := by
  constructor
  · rintro ⟨children, hlook, hin⟩
    have hread := exists_nodesFrom.1 ⟨_, hlook⟩
    rw [nodesFrom_eq hread] at hlook
    obtain ⟨byType, hget, rfl⟩ := Option.map_eq_some_iff.mp (Except.ok.inj hlook)
    refine ⟨hread, mem_connectionsFrom.1 ?_⟩
    rw [hget]
    exact List.mem_map.mp hin
  · rintro ⟨hread, hlinked⟩
    obtain ⟨connection, hin, hnode⟩ := mem_connectionsFrom.2 hlinked
    obtain ⟨byType, hget, -⟩ := hlinked
    rw [hget] at hin
    refine ⟨_, by rw [nodesFrom_eq hread, hget]; rfl, List.mem_map.mpr ⟨connection, hin, hnode⟩⟩

end Look

/-! ## The depth-first search -/

section Connected

variable {filter : ConnectionFilter} {connections : IConnections} {start : String} {depth : ℤ}
  {found : List String}

/-- As far as the search looks at nodes, its steps are the connections. -/
theorem hops_of_linked {limit : ℕ∞}
    (hlook : ∀ (n : ℕ) v, Hops (MemoSearch.Step (nodesFrom filter connections)) start n v →
      (n : ℕ∞) < limit → Readable connections v) {n : ℕ} {v : String}
    (h : Hops (Linked filter connections) start n v) (hle : (n : ℕ∞) ≤ limit) :
    Hops (MemoSearch.Step (nodesFrom filter connections)) start n v := by
  induction h with
  | here => exact .here
  | @further n u v _ hlinked ih =>
    have hlt : (n : ℕ∞) < limit := lt_of_lt_of_le (by exact_mod_cast Nat.lt_succ_self n) hle
    have hwalk := ih hlt.le
    exact hwalk.further (step_iff.2 ⟨hlook n u hwalk hlt, hlinked⟩)

theorem linked_of_hops {n : ℕ} {v : String}
    (h : Hops (MemoSearch.Step (nodesFrom filter connections)) start n v) :
    Hops (Linked filter connections) start n v := by
  induction h with
  | here => exact .here
  | further _ hstep ih => exact ih.further (step_iff.1 hstep).2

/-- **What the depth-first search returns**, and at which nodes it did not fail. -/
theorem getConnectedNodes_spec (h : getConnectedNodes connections start filter depth = .ok found) :
    found.Nodup ∧
      (∀ v, v ∈ found ↔ v ≠ start ∧ ∃ n : ℕ, 1 ≤ n ∧ (n : ℕ∞) ≤ depths.hops depth ∧
        Hops (Linked filter connections) start n v) ∧
      ∀ (n : ℕ) v, Hops (Linked filter connections) start n v → (n : ℕ∞) < depths.hops depth →
        Readable connections v := by
  obtain ⟨⟨found', memo⟩, hrun, rfl⟩ := Failure.map_eq_ok.mp h
  have hsound := (MemoSearch.collect_sound hrun (List.mem_cons_self : start ∈ start :: [])
    fun _ _ hget => by cases hget).1
  have hlook : ∀ (n : ℕ) v, Hops (MemoSearch.Step (nodesFrom filter connections)) start n v →
      (n : ℕ∞) < depths.hops depth → Readable connections v := fun n v hwalk hlt =>
    exists_nodesFrom.1 ((MemoSearch.collect_complete hrun hwalk).2 hlt)
  refine ⟨hsound.nodup, fun v => ⟨fun hv => ?_, ?_⟩, ?_⟩
  · obtain ⟨n, hpos, hle, hwalk⟩ := hsound.within v hv
    exact ⟨fun heq => hsound.avoids (heq ▸ hv), n, hpos, hle, linked_of_hops hwalk⟩
  · rintro ⟨hne, n, -, hle, hwalk⟩
    exact (MemoSearch.collect_complete hrun (hops_of_linked hlook hwalk hle)).1 hle hne
  · intro n v hwalk hlt
    exact hlook n v (hops_of_linked hlook hwalk hlt.le) hlt

theorem exists_getConnectedNodes
    (h : ∀ (n : ℕ) v, Hops (Linked filter connections) start n v →
      (n : ℕ∞) < depths.hops depth → Readable connections v) :
    ∃ found, getConnectedNodes connections start filter depth = .ok found := by
  have hcard : (connections.keys.toFinset.filter (· ∉ ([] : List String))).card <
      connections.keys.length + 1 :=
    Nat.lt_succ_of_le ((Finset.card_filter_le _ _).trans (List.toFinset_card_le _))
  have hall : ∀ v children, nodesFrom filter connections v = .ok (some children) →
      v ∈ connections.keys.toFinset := fun v children hlook =>
    List.mem_toFinset.mpr (mem_keys_of_nodesFrom hlook)
  obtain ⟨r, hr⟩ : ∃ r, collect "the call stack is full" (nodesFrom filter connections) depths
      (connections.keys.length + 1) depth start [] .empty = .ok r :=
    MemoSearch.exists_collect hall hcard List.not_mem_nil fun n v hwalk hlt =>
      exists_nodesFrom.2 (h n v (linked_of_hops hwalk) hlt)
  rw [getConnectedNodes, hr]
  exact ⟨r.1, rfl⟩

/-- Without a limit a walk over connections is one of the search. -/
theorem transGen_step {a b : String} (ha : Readable connections a)
    (hread : ∀ v, Relation.TransGen (Linked filter connections) a v → Readable connections v)
    (h : Relation.TransGen (Linked filter connections) a b) :
    Relation.TransGen (MemoSearch.Step (nodesFrom filter connections)) a b := by
  induction h with
  | single hlinked => exact .single (step_iff.2 ⟨ha, hlinked⟩)
  | tail hlead hlinked ih => exact ih.tail (step_iff.2 ⟨hread _ hlead, hlinked⟩)

/-- **Without cycles and limit** every node comes before those that lead to it. -/
theorem getConnectedNodes_ordered
    (h : getConnectedNodes connections start filter depth = .ok found) (hdepth : depth < 0)
    (hacyclic : ∀ v, ¬ Relation.TransGen (Linked filter connections) v v) :
    found.Pairwise fun a b => ¬ Relation.TransGen (Linked filter connections) a b := by
  obtain ⟨-, hmem, hread⟩ := getConnectedNodes_spec h
  obtain ⟨⟨found', memo⟩, hrun, rfl⟩ := Failure.map_eq_ok.mp h
  have htop : depths.hops depth = ⊤ := if_pos hdepth
  have hsub : ∀ a b, MemoSearch.Step (nodesFrom filter connections) a b →
      Linked filter connections a b := fun a b hstep => (step_iff.1 hstep).2
  have hordered := (MemoSearch.collect_ordered
    (fun v hcycle => hacyclic v (Relation.TransGen.mono hsub v v hcycle)) hrun htop
    (fun _ hp => absurd hp List.not_mem_nil) fun _ _ hget => by cases hget).1
  refine hordered.ordered.imp_of_mem fun {a b} ha hb hnot hlead => hnot ?_
  obtain ⟨-, n, -, -, hwalk⟩ := (hmem a).mp ha
  have hwithin (m : ℕ) : (m : ℕ∞) < depths.hops depth := htop ▸ ENat.natCast_lt_top m
  refine transGen_step (hread n a hwalk (hwithin n)) (fun v hv => ?_) hlead
  obtain ⟨m, hm⟩ : ∃ m, Hops (Linked filter connections) start m v := by
    induction hv with
    | single hlinked => exact ⟨n + 1, hwalk.further hlinked⟩
    | tail _ hlinked ih =>
      obtain ⟨m, hm⟩ := ih
      exact ⟨m + 1, hm.further hlinked⟩
  exact hread m v hm (hwithin m)

end Connected

/-! ## The search level by level -/

section Levels

variable {connections : IConnections} {sourceNode : String} {maxDepth : ℤ} {fuel depth : ℕ}
  {queue : List IConnectedNode} {s t : Searched} {curr : IConnectedNode}

/-- What the search returns is what it has visited, and it has not failed there. -/
structure Kept (connections : IConnections) (sourceNode : String) (s : Searched) : Prop where
  keyed : OrderedMap.Keyed IConnectedNode.name s.visited
  nodup : s.returnConns.Nodup
  mem_iff : ∀ v, v ∈ s.returnConns ↔ v ∈ s.visited.keys ∧ v ≠ sourceNode
  fine : ∀ v ∈ s.visited.keys, Readable connections v ∧ v ∉ objectPrototypeNames

/-- What the turns of a level do: all nodes in the queue are visited, and the connections out of
the new ones are in the next queue. -/
structure Turned (connections : IConnections) (sourceNode : String) (s : Searched)
    (done : List IConnectedNode) (t : Searched × List IConnectedNode) : Prop where
  kept : Kept connections sourceNode t.1
  visited : ∀ v, v ∈ t.1.visited.keys ↔ v ∈ s.visited.keys ∨ v ∈ done.map IConnectedNode.name
  sound : ∀ c ∈ t.2, ∃ u ∈ done.map IConnectedNode.name, u ∉ s.visited.keys ∧
    Linked (.type "main") connections u c.name
  complete : ∀ u ∈ done.map IConnectedNode.name, u ∉ s.visited.keys →
    ∀ w, Linked (.type "main") connections u w → w ∈ t.2.map IConnectedNode.name

theorem Turned.visitNode {done : List IConnectedNode} {t u : Searched × List IConnectedNode}
    (h : Turned connections sourceNode s done t)
    (hrun : visitNode connections sourceNode (depth + 1) t curr = .ok u) :
    Turned connections sourceNode s (done ++ [curr]) u := by
  have hname (v : String) : v ∈ (done ++ [curr]).map IConnectedNode.name ↔
      v ∈ done.map IConnectedNode.name ∨ v = curr.name := by
    rw [List.map_append, List.mem_append]
    exact or_congr_right List.mem_singleton
  obtain ⟨⟨hkeyed, hnodup, hmem, hfine⟩, hvisited, hsound, hcomplete⟩ := h
  unfold N8n.Workflows.visitNode at hrun
  split at hrun
  case isTrue => cases hrun
  case isFalse hproto =>
    split at hrun
    case h_1 known hknown =>
      -- the node is known, and only its indices grow
      cases hrun
      have hin : curr.name ∈ t.1.visited.keys := mem_keys.mpr ⟨known, hknown⟩
      have hkey : known.name = curr.name := hkeyed _ _ hknown
      have hkeys (v : String) {node : IConnectedNode} :
          v ∈ (t.1.visited.set curr.name node).keys ↔ v ∈ t.1.visited.keys := by
        rw [mem_keys_set]
        exact or_iff_right_of_imp fun heq => heq ▸ hin
      refine ⟨⟨?_, hnodup, fun v => by rw [hkeys, hmem], fun v hv => hfine v ((hkeys v).mp hv)⟩,
        ?_, ?_, ?_⟩
      · exact hkey ▸ hkeyed.set { known with
          indicies := (known.indicies ++ curr.indicies).eraseDups }
      · intro v
        rw [hkeys, hvisited, hname]
        constructor
        · exact Or.imp_right .inl
        · rintro (hv | hv | rfl)
          exacts [.inl hv, .inr hv, (hvisited _).mp hin]
      · intro c hc
        obtain ⟨w, hw, hrest⟩ := hsound c hc
        exact ⟨w, (hname w).mpr (.inl hw), hrest⟩
      · intro w hw hnew
        rcases (hname w).mp hw with hw | rfl
        · exact hcomplete w hw hnew
        · exact hcomplete _ (((hvisited _).mp hin).resolve_left hnew) hnew
    case h_2 hnone =>
      obtain ⟨followed, hfollowed, hrun⟩ := bind_eq_ok.mp hrun
      cases hrun
      have hread : Readable connections curr.name := exists_connectionsFrom.mp ⟨_, hfollowed⟩
      rw [connectionsFrom_eq hread] at hfollowed
      cases hfollowed
      have hnew : curr.name ∉ t.1.visited.keys := by
        intro hin
        obtain ⟨node, hnode⟩ := mem_keys.mp hin
        rw [hnone] at hnode
        cases hnode
      have hold : curr.name ∉ s.visited.keys := fun hin => hnew ((hvisited _).mpr (.inl hin))
      refine ⟨⟨hkeyed.set curr, ?_, ?_, ?_⟩, ?_, ?_, ?_⟩
      · split
        · rw [List.nodup_append]
          refine ⟨hnodup, List.nodup_singleton _, fun v hv w hw heq => hnew ?_⟩
          obtain rfl := List.mem_singleton.mp hw
          exact heq ▸ ((hmem v).mp hv).1
        · exact hnodup
      · intro v
        rw [mem_keys_set]
        split
        case isTrue hne =>
          rw [List.mem_append, hmem, List.mem_singleton]
          by_cases heq : v = curr.name
          · simp [heq, hne]
          · simp [heq]
        case isFalse heq =>
          rw [hmem, not_not.mp heq]
          tauto
      · intro v hv
        rcases mem_keys_set.mp hv with rfl | hv
        exacts [⟨hread, hproto⟩, hfine v hv]
      · intro v
        rw [mem_keys_set, hvisited, hname]
        tauto
      · intro c hc
        rcases List.mem_append.mp hc with hc | hc
        · obtain ⟨w, hw, hrest⟩ := hsound c hc
          exact ⟨w, (hname w).mpr (.inl hw), hrest⟩
        · obtain ⟨connection, hin, rfl⟩ := List.mem_map.mp hc
          exact ⟨curr.name, (hname _).mpr (.inr rfl), hold,
            mem_connectionsFrom.mp ⟨connection, hin, rfl⟩⟩
      · intro w hw hwnew x hlinked
        rw [List.map_append, List.mem_append]
        rcases (hname w).mp hw with hw | rfl
        · exact .inl (hcomplete w hw hwnew x hlinked)
        · obtain ⟨connection, hin, rfl⟩ := mem_connectionsFrom.mpr hlinked
          refine .inr (List.mem_map.mpr ⟨_, List.mem_map_of_mem hin, rfl⟩)

/-- The search has visited the nodes at less than `depth` hops, and has those that they are
connected to in its queue. -/
structure Level (connections : IConnections) (sourceNode : String) (depth : ℕ)
    (queue : List IConnectedNode) (s : Searched) : Prop where
  kept : Kept connections sourceNode s
  inside : ∀ v ∈ s.visited.keys, ∃ n < depth,
    Hops (Linked (.type "main") connections) sourceNode n v
  queued : ∀ c ∈ queue, ∃ n ≤ depth, Hops (Linked (.type "main") connections) sourceNode n c.name
  met : ∀ n < depth, ∀ v, Hops (Linked (.type "main") connections) sourceNode n v →
    v ∈ s.visited.keys
  start : sourceNode ∈ s.visited.keys ∨ sourceNode ∈ queue.map IConnectedNode.name
  closed : ∀ v ∈ s.visited.keys, ∀ w, Linked (.type "main") connections v w →
    w ∈ s.visited.keys ∨ w ∈ queue.map IConnectedNode.name

theorem kept_init : Kept connections sourceNode ⟨.empty, []⟩ := by
  refine ⟨.empty, List.nodup_nil, fun v => ?_, fun v hv => absurd hv List.not_mem_nil⟩
  exact iff_of_false List.not_mem_nil fun h => absurd h.1 List.not_mem_nil

theorem level_init : Level connections sourceNode 0 [⟨sourceNode, [], 0⟩] ⟨.empty, []⟩ := by
  refine ⟨kept_init, fun v hv => absurd hv List.not_mem_nil, ?_,
    fun n hn => absurd hn (Nat.not_lt_zero n), .inr (List.mem_singleton_self _),
    fun v hv => absurd hv List.not_mem_nil⟩
  intro c hc
  obtain rfl := List.mem_singleton.mp hc
  exact ⟨0, le_rfl, .here⟩

/-- **One level more.** -/
theorem Level.next {t : Searched × List IConnectedNode}
    (h : Level connections sourceNode depth queue s)
    (hturned : Turned connections sourceNode s queue t) :
    Level connections sourceNode (depth + 1) t.2 t.1 := by
  have hall : ∀ v, v ∈ s.visited.keys ∨ v ∈ queue.map IConnectedNode.name → v ∈ t.1.visited.keys :=
    fun v hv => (hturned.visited v).mpr hv
  have hqueued : ∀ v ∈ queue.map IConnectedNode.name,
      ∃ n < depth + 1, Hops (Linked (.type "main") connections) sourceNode n v := by
    intro v hv
    obtain ⟨c, hc, rfl⟩ := List.mem_map.mp hv
    obtain ⟨n, hn, hwalk⟩ := h.queued c hc
    exact ⟨n, Nat.lt_succ_of_le hn, hwalk⟩
  refine ⟨hturned.kept, ?_, ?_, ?_, .inl (hall _ h.start), ?_⟩
  · intro v hv
    rcases (hturned.visited v).mp hv with hv | hv
    · obtain ⟨n, hn, hwalk⟩ := h.inside v hv
      exact ⟨n, Nat.lt_succ_of_lt hn, hwalk⟩
    · exact hqueued v hv
  · intro c hc
    obtain ⟨w, hw, -, hlinked⟩ := hturned.sound c hc
    obtain ⟨n, hn, hwalk⟩ := hqueued w hw
    exact ⟨n + 1, hn, hwalk.further hlinked⟩
  · intro n hn v hwalk
    cases hwalk with
    | here => exact hall _ h.start
    | further hwalk hlinked =>
      exact hall _ (h.closed _ (h.met _ (Nat.lt_of_succ_lt_succ hn) _ hwalk) _ hlinked)
  · intro v hv w hlinked
    by_cases hnew : v ∈ s.visited.keys
    · exact .inl (hall w (h.closed v hnew w hlinked))
    · have hin := ((hturned.visited v).mp hv).resolve_left hnew
      exact .inr (hturned.complete v hin hnew w hlinked)

/-- **The levels**: where the search ends its queue is empty or its depth is over the limit. -/
theorem searchLevels_level (h : Level connections sourceNode depth queue s)
    (hrun : searchLevels connections sourceNode maxDepth fuel depth queue s = .ok t)
    (hdepth : maxDepth ≠ -1 → (depth : ℤ) ≤ maxDepth + 1) :
    ∃ depth' queue', Level connections sourceNode depth' queue' t ∧
      (queue' = [] ∨ maxDepth ≠ -1 ∧ maxDepth < depth') ∧
      (maxDepth ≠ -1 → (depth' : ℤ) ≤ maxDepth + 1) := by
  induction fuel generalizing depth queue s with
  | zero => cases hrun
  | succ fuel ih =>
    rw [searchLevels] at hrun
    split at hrun
    case isTrue hend =>
      cases hrun
      exact ⟨depth, queue, h, hend, hdepth⟩
    case isFalse hgo =>
      obtain ⟨next, hturns, hrun⟩ := bind_eq_ok.mp hrun
      have hturned := Failure.foldlM_invariant (I := Turned connections sourceNode s) hturns
        ⟨h.kept, by simp, fun c hc => absurd hc List.not_mem_nil, by simp⟩
        fun _ hdone hvisit => hdone.visitNode hvisit
      refine ih (h.next hturned) hrun fun hlimit => ?_
      have hnot : ¬ maxDepth < depth := fun hlt => hgo (.inr ⟨hlimit, hlt⟩)
      push_cast
      omega

/-- The number of hops is within the limit. -/
def WithinDepth (maxDepth : ℤ) (n : ℕ) : Prop := maxDepth ≠ -1 → (n : ℤ) ≤ maxDepth

/-- **What the search level by level returns**, and at which nodes it did not fail. -/
theorem searchNodesBFS_spec {nodes : List IConnectedNode} (hlimit : -1 ≤ maxDepth)
    (h : searchNodesBFS connections sourceNode maxDepth = .ok nodes) :
    (nodes.map IConnectedNode.name).Nodup ∧
      (∀ v, v ∈ nodes.map IConnectedNode.name ↔ v ≠ sourceNode ∧
        ∃ n, WithinDepth maxDepth n ∧ Hops (Linked (.type "main") connections) sourceNode n v) ∧
      ∀ n v, WithinDepth maxDepth n → Hops (Linked (.type "main") connections) sourceNode n v →
        Readable connections v ∧ v ∉ objectPrototypeNames := by
  obtain ⟨t, hrun, rfl⟩ := Failure.map_eq_ok.mp h
  obtain ⟨depth, queue, hlevel, hend, hdepth⟩ := searchLevels_level level_init hrun
    (fun _ => by push_cast; omega)
  have hvisited : ∀ n v, WithinDepth maxDepth n →
      Hops (Linked (.type "main") connections) sourceNode n v → v ∈ t.visited.keys := by
    intro n v hn hwalk
    rcases hend with rfl | ⟨hne, hover⟩
    · -- the queue is empty, so nothing leads out of what was visited
      clear hn
      induction hwalk with
      | here => exact hlevel.start.resolve_right List.not_mem_nil
      | further _ hlinked ih => exact (hlevel.closed _ ih _ hlinked).resolve_right List.not_mem_nil
    · exact hlevel.met n (by have := hn hne; omega) v hwalk
  have hnames : (t.returnConns.filterMap t.visited.get?).map IConnectedNode.name =
      t.returnConns := by
    rw [List.map_filterMap]
    refine (List.filterMap_congr fun v hv => ?_).trans List.filterMap_some
    obtain ⟨node, hnode⟩ := mem_keys.mp ((hlevel.kept.mem_iff v).mp hv).1
    rw [hnode, Option.map_some, hlevel.kept.keyed v node hnode]
  rw [hnames]
  refine ⟨hlevel.kept.nodup, fun v => ?_, fun n v hn hwalk => ?_⟩
  · rw [hlevel.kept.mem_iff, and_comm]
    refine and_congr_right fun _ => ⟨fun hv => ?_, fun ⟨n, hn, hwalk⟩ => hvisited n v hn hwalk⟩
    obtain ⟨n, hn, hwalk⟩ := hlevel.inside v hv
    exact ⟨n, fun hne => by have := hdepth hne; omega, hwalk⟩
  · exact hlevel.kept.fine v (hvisited n v hn hwalk)

def unvisited (connections : IConnections) (s : Searched) : ℕ :=
  (connections.keys.toFinset.filter (· ∉ s.visited.keys)).card

theorem exists_visitNode (hread : Readable connections curr.name)
    (hproto : curr.name ∉ objectPrototypeNames) (t : Searched × List IConnectedNode) :
    ∃ u, visitNode connections sourceNode (depth + 1) t curr = .ok u := by
  unfold visitNode
  rw [if_neg hproto]
  cases t.1.visited.get? curr.name with
  | some known => exact ⟨_, rfl⟩
  | none =>
    rw [connectionsFrom_eq hread]
    exact ⟨_, rfl⟩

/-- A level with another one after it visits a key. -/
theorem Turned.unvisited_lt {t : Searched × List IConnectedNode}
    (h : Turned connections sourceNode s queue t) (hnext : t.2 ≠ []) :
    unvisited connections t.1 < unvisited connections s := by
  obtain ⟨c, hc⟩ := List.exists_mem_of_ne_nil _ hnext
  obtain ⟨u, hu, hnew, byType, hget, -⟩ := h.sound c hc
  apply Remaining.card_lt_of_seen (a := u)
  · exact fun v hv hin => hv ((h.visited v).mpr (.inl hin))
  · exact List.mem_toFinset.mpr (mem_keys.mpr ⟨byType, hget⟩)
  · exact hnew
  · exact not_not_intro ((h.visited u).mpr (.inr hu))

theorem exists_searchLevels (h : Level connections sourceNode depth queue s)
    (hfine : ∀ n v, WithinDepth maxDepth n →
      Hops (Linked (.type "main") connections) sourceNode n v →
        Readable connections v ∧ v ∉ objectPrototypeNames)
    (hfuel : unvisited connections s + 1 < fuel ∨ queue = [] ∧ 0 < fuel) :
    ∃ t, searchLevels connections sourceNode maxDepth fuel depth queue s = .ok t := by
  induction fuel generalizing depth queue s with
  | zero => omega
  | succ fuel ih =>
    rw [searchLevels]
    split
    case isTrue => exact ⟨s, rfl⟩
    case isFalse hgo =>
      rw [not_or] at hgo
      have hturn : ∀ curr ∈ queue, ∀ t,
          ∃ u, visitNode connections sourceNode (depth + 1) t curr = .ok u := by
        intro curr hcurr t
        obtain ⟨n, hn, hwalk⟩ := h.queued curr hcurr
        obtain ⟨hread, hproto⟩ := hfine n curr.name
          (fun hne => by have := not_and.mp hgo.2 hne; omega) hwalk
        exact exists_visitNode hread hproto t
      obtain ⟨next, hturns⟩ := Failure.exists_foldlM hturn (s, [])
      have hturned := Failure.foldlM_invariant (I := Turned connections sourceNode s) hturns
        ⟨h.kept, by simp, fun c hc => absurd hc List.not_mem_nil, by simp⟩
        fun _ hdone hvisit => hdone.visitNode hvisit
      rw [hturns]
      refine ih (h.next hturned) ?_
      have hleft := hfuel.resolve_right fun hempty => hgo.1 hempty.1
      by_cases hnext : next.2 = []
      · exact .inr ⟨hnext, by omega⟩
      · have := hturned.unvisited_lt hnext
        exact .inl (by omega)

theorem exists_searchNodesBFS (hfine : ∀ n v, WithinDepth maxDepth n →
    Hops (Linked (.type "main") connections) sourceNode n v →
      Readable connections v ∧ v ∉ objectPrototypeNames) :
    ∃ nodes, searchNodesBFS connections sourceNode maxDepth = .ok nodes := by
  have hcard : unvisited connections ⟨.empty, []⟩ ≤ connections.keys.length :=
    (Finset.card_filter_le _ _).trans (List.toFinset_card_le _)
  have hfuel : unvisited connections ⟨.empty, []⟩ + 1 < connections.keys.length + 2 := by omega
  obtain ⟨t, ht⟩ := exists_searchLevels (@level_init connections sourceNode) hfine (.inl hfuel)
  rw [searchNodesBFS, ht]
  exact ⟨_, rfl⟩

end Levels

/-! ## Both searches -/

section Both

/-- The depth argument for a limit; without one it is `-1`. -/
def depthOf : Option ℕ → ℤ
  | none => -1
  | some limit => limit

/-- **What the searches are for**: the nodes within the hops, each once, without cycles and limit
every node before those that lead to it, and along main connections both find the same nodes. -/
def FindsConnected (connections : IConnections) (nodeName : String) (filter : ConnectionFilter)
    (limit : Option ℕ) : Prop :=
  ∃ found, getConnectedNodes connections nodeName filter (depthOf limit) = .ok found ∧
    found.Nodup ∧
    (∀ v, v ∈ found ↔ v ≠ nodeName ∧ ∃ n, 1 ≤ n ∧ (∀ m, limit = some m → n ≤ m) ∧
      Hops (Linked filter connections) nodeName n v) ∧
    (limit = none → (∀ v, ¬ Relation.TransGen (Linked filter connections) v v) →
      found.Pairwise fun a b => ¬ Relation.TransGen (Linked filter connections) a b) ∧
    (filter = .type "main" → ∃ nodes,
      searchNodesBFS connections nodeName (depthOf limit) = .ok nodes ∧
        ∀ v, v ∈ nodes.map IConnectedNode.name ↔ v ∈ found)

/-- No object that a search looks at has a key that stands in for the method, and the search level
by level gets to no node with an inherited name. -/
def Searchable (connections : IConnections) (nodeName : String) (filter : ConnectionFilter)
    (limit : Option ℕ) : Prop :=
  ∀ n v, Hops (Linked filter connections) nodeName n v →
    ((∀ m, limit = some m → n < m) → Readable connections v) ∧
    (filter = .type "main" → (∀ m, limit = some m → n ≤ m) →
      Readable connections v ∧ v ∉ objectPrototypeNames)

variable {limit : Option ℕ} {n : ℕ}

theorem le_hops_iff : (n : ℕ∞) ≤ depths.hops (depthOf limit) ↔ ∀ m, limit = some m → n ≤ m := by
  cases limit with
  | none => simp [depths, depthOf]
  | some limit => simp [depths, depthOf, not_lt.mpr (Int.natCast_nonneg limit)]

theorem lt_hops_iff : (n : ℕ∞) < depths.hops (depthOf limit) ↔ ∀ m, limit = some m → n < m := by
  cases limit with
  | none => simp [depths, depthOf]
  | some limit => simp [depths, depthOf, not_lt.mpr (Int.natCast_nonneg limit)]

theorem withinDepth_iff : WithinDepth (depthOf limit) n ↔ ∀ m, limit = some m → n ≤ m := by
  cases limit with
  | none => simp [WithinDepth, depthOf]
  | some limit =>
    simp only [WithinDepth, depthOf, Option.some.injEq, forall_eq', Nat.cast_le]
    exact ⟨fun h => h (by omega), fun h _ => h⟩

theorem neg_one_le_depthOf : -1 ≤ depthOf limit := by
  cases limit with
  | none => exact le_rfl
  | some limit => exact (by decide : (-1 : ℤ) ≤ 0).trans (Int.natCast_nonneg limit)

/-- **Exactly when the nodes within the hops are found**: no node on the way has a name that the
objects of the searches cannot hold. -/
theorem findsConnected_iff (connections : IConnections) (nodeName : String)
    (filter : ConnectionFilter) (limit : Option ℕ) :
    FindsConnected connections nodeName filter limit ↔
      Searchable connections nodeName filter limit := by
  constructor
  · rintro ⟨found, hfound, -, -, -, hmain⟩ n v hwalk
    refine ⟨fun hn => (getConnectedNodes_spec hfound).2.2 n v hwalk (lt_hops_iff.2 hn), ?_⟩
    rintro rfl hn
    obtain ⟨nodes, hnodes, -⟩ := hmain rfl
    exact (searchNodesBFS_spec neg_one_le_depthOf hnodes).2.2 n v (withinDepth_iff.2 hn) hwalk
  · intro h
    obtain ⟨found, hfound⟩ : ∃ found,
        getConnectedNodes connections nodeName filter (depthOf limit) = .ok found :=
      exists_getConnectedNodes fun n v hwalk hlt => (h n v hwalk).1 (lt_hops_iff.1 hlt)
    obtain ⟨hnodup, hmem, -⟩ := getConnectedNodes_spec hfound
    refine ⟨found, hfound, hnodup, ?_, ?_, ?_⟩
    · simpa only [le_hops_iff] using hmem
    · rintro rfl hacyclic
      exact getConnectedNodes_ordered hfound (by decide) hacyclic
    · rintro rfl
      obtain ⟨nodes, hnodes⟩ : ∃ nodes,
          searchNodesBFS connections nodeName (depthOf limit) = .ok nodes :=
        exists_searchNodesBFS fun n v hn hwalk => (h n v hwalk).2 rfl (withinDepth_iff.1 hn)
      refine ⟨nodes, hnodes, fun v => ?_⟩
      rw [(searchNodesBFS_spec neg_one_le_depthOf hnodes).2.1, hmem]
      refine and_congr_right fun hne => ?_
      constructor
      · rintro ⟨n, hn, hwalk⟩
        refine ⟨n, ?_, le_hops_iff.2 (withinDepth_iff.1 hn), hwalk⟩
        cases hwalk with
        | here => exact absurd rfl hne
        | further => exact Nat.succ_le_succ (Nat.zero_le _)
      · rintro ⟨n, -, hn, hwalk⟩
        exact ⟨n, withinDepth_iff.2 (le_hops_iff.1 hn), hwalk⟩

/-- A trigger that is connected to a node with the name of the method. -/
def shadowedConnections : IConnections :=
  (OrderedMap.empty.set "Trigger" (OrderedMap.empty.set "main"
    [some [⟨"hasOwnProperty", "main", 0⟩]])).set "hasOwnProperty"
      (OrderedMap.empty.set "main" [some [⟨"Sheet", "main", 0⟩]])

/-- Nothing is found where the node with that name has connections. -/
theorem not_findsConnected :
    ¬ FindsConnected shadowedConnections "Trigger" (.type "main") none := by
  rintro ⟨found, hfound, -⟩
  have hfails : getConnectedNodes shadowedConnections "Trigger" (.type "main") (depthOf none) =
      .error "hasOwnProperty is not a function" := by rfl
  rw [hfails] at hfound
  cases hfound

end Both

end N8n.Workflows
