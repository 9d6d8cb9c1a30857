import N8n.WorkflowExecute.WaitingExecution

/-!
# Connections of a workflow

The connections of a workflow as it stores them: for each source node and each type of connection
an array over the outputs, with the connections out of each output or nothing.

## Main definitions

* `IConnection`, `IConnections`: connections, and the connections by source node
* `objectEntries`: the entries of an object in the order in which they are visited
* `outgoing`, `links`: the connections out of a node and of a workflow, each with where it comes from
* `pushAt`: one more connection at an index

## Main results

* `mem_links`: the connections that are listed are those that are stored
-/

namespace N8n.Workflows

open WorkflowExecute (objectKeys)

structure IConnection where
  node : String
  type : String
  index : ℕ
  deriving DecidableEq, Repr

/-- The connections at each index; `null` and a hole are both nothing. -/
abbrev NodeInputConnections := List (Option (List IConnection))

abbrev INodeConnections := OrderedMap String NodeInputConnections

abbrev IConnections := OrderedMap String INodeConnections

/-- `Object.entries` of an object. -/
def objectEntries {ν : Type} (object : OrderedMap String ν) : List (String × ν) :=
  (objectKeys object.keys).filterMap fun key => (object.get? key).map fun value => (key, value)

theorem mem_objectKeys {names : List String} {name : String} :
    name ∈ objectKeys names ↔ name ∈ names := by
  simp only [objectKeys, List.mem_append, List.mem_insertionSort, List.mem_filter]
  by_cases h : WorkflowExecute.isArrayIndex name <;> simp [h]

theorem nodup_objectKeys {names : List String} (h : names.Nodup) :
    (objectKeys names).Nodup := by
  rw [objectKeys, List.nodup_append]
  refine ⟨(List.perm_insertionSort _ _).nodup_iff.mpr (h.filter _), h.filter _, ?_⟩
  rintro a ha b hb rfl
  rw [List.mem_insertionSort, List.mem_filter] at ha
  rw [List.mem_filter] at hb
  simp [ha.2] at hb

/-- Shorter names first, names of one length in order: on array indices the order of numbers. -/
def indexOrder (a b : String) : Prop := a.length < b.length ∨ (a.length = b.length ∧ a ≤ b)

instance : DecidableRel indexOrder := fun a b =>
  inferInstanceAs (Decidable (a.length < b.length ∨ (a.length = b.length ∧ a ≤ b)))

instance : Std.Total indexOrder where
  total a b := by
    rcases lt_trichotomy a.length b.length with h | h | h
    · exact .inl (.inl h)
    · exact (String.le_total a b).imp (fun hab => .inr ⟨h, hab⟩) fun hba => .inr ⟨h.symm, hba⟩
    · exact .inr (.inl h)

instance : IsTrans String indexOrder where
  trans a b c := by
    rintro (hab | ⟨hab, hle⟩) (hbc | ⟨hbc, hle'⟩)
    · exact .inl (hab.trans hbc)
    · exact .inl (hbc ▸ hab)
    · exact .inl (hab ▸ hbc)
    · exact .inr ⟨hab.trans hbc, String.le_trans hle hle'⟩

instance : Std.Antisymm indexOrder where
  antisymm a b := by
    rintro (hab | ⟨hab, hle⟩) (hba | ⟨hba, hle'⟩)
    · exact absurd (hab.trans hba) (lt_irrefl _)
    · exact absurd hba hab.ne'
    · exact absurd hab hba.ne'
    · exact String.le_antisymm hle hle'

/-- Leaving names out does not change the order of the others. -/
theorem filter_objectKeys (names : List String) (p : String → Bool) :
    (objectKeys names).filter p = objectKeys (names.filter p) := by
  have hsort : ∀ l : List String, (l.insertionSort indexOrder).filter p =
      (l.filter p).insertionSort indexOrder := by
    intro l
    refine List.Perm.eq_of_pairwise' (r := indexOrder) ?_ ?_ ?_
    · exact (List.pairwise_insertionSort indexOrder l).filter p
    · exact List.pairwise_insertionSort indexOrder _
    · exact ((List.perm_insertionSort indexOrder l).filter p).trans
        (List.perm_insertionSort indexOrder _).symm
  rw [objectKeys, objectKeys, List.filter_append]
  refine congrArg₂ (· ++ ·) ((hsort _).trans ?_) ?_
  · rw [List.filter_filter, List.filter_filter]
    simp only [Bool.and_comm]
    rfl
  · rw [List.filter_filter, List.filter_filter]
    simp only [Bool.and_comm]

@[simp] theorem mem_objectEntries {ν : Type} {object : OrderedMap String ν} {key : String} {value : ν} :
    (key, value) ∈ objectEntries object ↔ object.get? key = some value := by
  simp only [objectEntries, List.mem_filterMap, Option.map_eq_some_iff, Prod.mk.injEq]
  constructor
  · rintro ⟨key', -, value', hget, rfl, rfl⟩
    exact hget
  · intro hget
    exact ⟨key, mem_objectKeys.mpr (OrderedMap.mem_keys.mpr ⟨value, hget⟩), value, hget, rfl, rfl⟩

def objectPrototypeNames : List String :=
  ["constructor", "__defineGetter__", "__defineSetter__", "hasOwnProperty", "__lookupGetter__",
    "__lookupSetter__", "isPrototypeOf", "propertyIsEnumerable", "toString", "valueOf", "__proto__",
    "toLocaleString"]

/-! ## The connections one by one -/

/-- A connection with the type and the output that it is stored under. -/
structure Outgoing where
  type : String
  outputIndex : ℕ
  connection : IConnection
  deriving DecidableEq, Repr

/-- The connections out of a node, in the order in which they are visited. -/
def outgoing (byType : INodeConnections) : List Outgoing :=
  (objectEntries byType).flatMap fun (type, outputs) =>
    outputs.zipIdx.flatMap fun (connections, outputIndex) =>
      (connections.getD []).map fun connection => ⟨type, outputIndex, connection⟩

/-- A connection with its source node. -/
structure Link where
  source : String
  out : Outgoing
  deriving DecidableEq, Repr

def links (connections : IConnections) : List Link :=
  (objectEntries connections).flatMap fun (source, byType) =>
    (outgoing byType).map fun out => ⟨source, out⟩

def connectionsAt (outputs : NodeInputConnections) (index : ℕ) : List IConnection :=
  (WorkflowExecute.at? outputs index).getD []

theorem mem_outgoing {byType : INodeConnections} {out : Outgoing} : out ∈ outgoing byType ↔
    ∃ outputs, byType.get? out.type = some outputs ∧
      out.connection ∈ connectionsAt outputs out.outputIndex := by
  obtain ⟨type, outputIndex, connection⟩ := out
  simp only [outgoing, List.mem_flatMap, List.mem_map, Prod.exists, mem_objectEntries,
    List.mem_zipIdx_iff_getElem?, Outgoing.mk.injEq, connectionsAt, WorkflowExecute.at?]
  constructor
  · rintro ⟨_, outputs, hget, connections, _, hat, _, hmem, rfl, rfl, rfl⟩
    exact ⟨outputs, hget, by rw [hat]; exact hmem⟩
  · rintro ⟨outputs, hget, hmem⟩
    cases hat : outputs[outputIndex]? with
    | none => simp [hat] at hmem
    | some connections =>
      exact ⟨type, outputs, hget, connections, outputIndex, hat, connection,
        by simpa [hat] using hmem, rfl, rfl, rfl⟩

/-- **The connections that are listed** are those that are stored. -/
theorem mem_links {connections : IConnections} {link : Link} : link ∈ links connections ↔
    ∃ byType, connections.get? link.source = some byType ∧ link.out ∈ outgoing byType := by
  obtain ⟨source, out⟩ := link
  simp only [links, List.mem_flatMap, List.mem_map, Prod.exists, mem_objectEntries, Link.mk.injEq]
  constructor
  · rintro ⟨_, byType, hget, _, hmem, rfl, rfl⟩
    exact ⟨byType, hget, hmem⟩
  · rintro ⟨byType, hget, hmem⟩
    exact ⟨source, byType, hget, out, hmem, rfl, rfl⟩

theorem objectEntries_mapValues {ν ω : Type} (object : OrderedMap String ν) (f : ν → ω) :
    objectEntries (object.mapValues f) = (objectEntries object).map fun e => (e.1, f e.2) := by
  rw [objectEntries, objectEntries, OrderedMap.keys_mapValues, List.map_filterMap]
  refine List.filterMap_congr fun key _ => ?_
  rw [OrderedMap.get?_mapValues]
  cases object.get? key <;> rfl

/-- The connections out of the node with a name. -/
def linksOf (connections : IConnections) (source : String) : List Link :=
  (((connections.get? source).map outgoing).getD []).map (Link.mk source)

theorem links_eq_flatMap (connections : IConnections) :
    links connections = (objectKeys connections.keys).flatMap (linksOf connections) := by
  rw [links, objectEntries]
  induction objectKeys connections.keys with
  | nil => rfl
  | cons source names ih =>
    rw [List.flatMap_cons, ← ih, List.filterMap_cons, linksOf]
    cases connections.get? source <;> rfl

/-- Names without connections can be left out. -/
theorem flatMap_objectKeys_filter {β : Type} (names : List String) (p : String → Bool)
    (f : String → List β) (h : ∀ name, p name = false → f name = []) :
    (objectKeys names).flatMap f = (objectKeys (names.filter p)).flatMap f := by
  rw [← filter_objectKeys]
  induction objectKeys names with
  | nil => rfl
  | cons name names ih =>
    rw [List.flatMap_cons, List.filter_cons, ih]
    split_ifs with hp
    · rw [List.flatMap_cons]
    · rw [h name (Bool.eq_false_iff.mpr hp), List.nil_append]

/-- `outputs[index] ??= []` and then `outputs[index].push(connection)`. -/
def pushAt (outputs : NodeInputConnections) (index : ℕ) (connection : IConnection) :
    NodeInputConnections :=
  WorkflowExecute.setAt outputs index (some (connectionsAt outputs index ++ [connection]))

theorem connectionsAt_pushAt {outputs : NodeInputConnections} {index i : ℕ}
    {connection : IConnection} : connectionsAt (pushAt outputs index connection) i =
      if i = index then connectionsAt outputs index ++ [connection]
      else connectionsAt outputs i := by
  rw [connectionsAt, pushAt, WorkflowExecute.at?_setAt]
  split_ifs with h
  · rfl
  · rfl

/-- One more connection out of an output of a type that is there. -/
theorem mem_outgoing_pushAt {byType : INodeConnections} {type : String}
    {outputs : NodeInputConnections} (hget : byType.get? type = some outputs) {index : ℕ}
    {connection : IConnection} {out : Outgoing} :
    out ∈ outgoing (byType.set type (pushAt outputs index connection)) ↔
      out ∈ outgoing byType ∨ out = ⟨type, index, connection⟩ := by
  obtain ⟨type', i, connection'⟩ := out
  simp only [mem_outgoing, Outgoing.mk.injEq]
  by_cases ht : type' = type
  · subst ht
    simp only [OrderedMap.get?_set_self, hget, Option.some.injEq, exists_eq_left',
      connectionsAt_pushAt, true_and]
    by_cases hi : i = index
    · subst hi
      simp [eq_comm]
    · simp [hi]
  · simp [OrderedMap.get?_set_of_ne ht, ht]

end N8n.Workflows
