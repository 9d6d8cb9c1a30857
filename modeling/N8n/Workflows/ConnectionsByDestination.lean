import Mathlib.Algebra.Order.Group.Multiset
import N8n.Workflows.ConnectedNodes
import N8n.Workflows.RenameNode

/-!
# Connections by destination

The connections of a workflow are regrouped by their destination, in arrays that grow up to the
index of a connection. Whether the objects have a key is asked by a method of these objects, and
keys are set by assignment, so that a key may stand in for the method, and `__proto__` sets the
prototype.

## Main definitions

* `mapConnectionsByDestinationChecked`: the conversion with the keys that its objects cannot hold
* `LosesNoLink`: the links of the result are those of the map seen from their destinations, and
  converting twice gives the links of the map
* `Mappable`: no name stands in for the method or sets a prototype

## Main results

* `links_mapConnectionsByDestination_perm`: regrouping keeps the links
* `mapConnectionsByDestinationChecked_ok`: where the names are keys like others, it is regrouping
* `losesNoLink_iff`: exactly when no link is lost
* `not_losesNoLink`: a node is called like the method
-/

namespace N8n.Workflows

open Failure OrderedMap
open WorkflowExecute (objectKeys)

/-! ## The conversion -/

/-- The connections into a node, by type and index. -/
abbrev ConnectionsInto := OrderedMap String (List (List IConnection))

/-- The object that is built: its own keys, and the keys of the prototype that it was given. -/
structure ReturnConnection where
  own : DestinationGroups
  inherited : ConnectionsInto

namespace ReturnConnection

def hasOwnProperty (object : ReturnConnection) (key : String) : Except String Bool :=
  if "hasOwnProperty" ∈ object.inherited.keys then .error "hasOwnProperty is not a function"
  else Workflows.hasOwnProperty object.own key

/-- `returnConnection[node] = byType`. -/
def assign (object : ReturnConnection) (node : String) (byType : ConnectionsInto) :
    ReturnConnection :=
  if node = "__proto__" then { object with inherited := byType }
  else { object with own := object.own.set node byType }

def connections (object : ReturnConnection) : IConnections :=
  object.own.mapValues fun byType => byType.mapValues fun groups => groups.map some

end ReturnConnection

/-- `byType[type] = slots`. Under `__proto__` the array becomes the prototype, where nothing looks
for it. -/
def assignType (byType : ConnectionsInto) (type : String) (slots : List (List IConnection)) :
    ConnectionsInto :=
  if type = "__proto__" then byType else byType.set type slots

/-- One more connection into an index, up to which the array grows. -/
def pushInto (slots : List (List IConnection)) (index : ℕ) (connection : IConnection) :
    List (List IConnection) :=
  (slots ++ List.replicate (index + 1 - slots.length) []).modify index (· ++ [connection])

/-- The turn of the inner loop for a connection. -/
def addConnection (returnConnection : ReturnConnection) (link : Link) :
    Except String ReturnConnection := do
  let connectionInfo := link.out.connection
  let byType :=
    if ← returnConnection.hasOwnProperty connectionInfo.node then
      (returnConnection.own.get? connectionInfo.node).getD .empty
    else .empty
  let slots :=
    if ← hasOwnProperty byType connectionInfo.type then
      (byType.get? connectionInfo.type).getD []
    else []
  let connection := ⟨link.source, link.out.type, link.out.outputIndex⟩
  let slots := pushInto slots connectionInfo.index connection
  return returnConnection.assign connectionInfo.node (assignType byType connectionInfo.type slots)

def typeLinks (sourceNode type : String) (outputs : NodeInputConnections) : List Link :=
  outputs.zipIdx.flatMap fun (connections, outputIndex) =>
    (connections.getD []).map fun connection => ⟨sourceNode, type, outputIndex, connection⟩

def addType (sourceNode : String) (byType : INodeConnections)
    (returnConnection : ReturnConnection) (entry : String × NodeInputConnections) :
    Except String ReturnConnection := do
  if ← hasOwnProperty byType entry.1 then
    (typeLinks sourceNode entry.1 entry.2).foldlM addConnection returnConnection
  else return returnConnection

def addSource (connections : IConnections) (returnConnection : ReturnConnection)
    (entry : String × INodeConnections) : Except String ReturnConnection := do
  if ← hasOwnProperty connections entry.1 then
    (objectEntries entry.2).foldlM (addType entry.1 entry.2) returnConnection
  else return returnConnection

/-- `mapConnectionsByDestination`, with the errors that it ends in and the keys that are lost. -/
def mapConnectionsByDestinationChecked (connections : IConnections) :
    Except String IConnections := do
  let returnConnection ← (objectEntries connections).foldlM (addSource connections)
    ⟨.empty, .empty⟩
  return returnConnection.connections

/-! ## What the conversion is for -/

/-- No link is lost, and converting twice gives the links of the map. -/
def LosesNoLink (connections : IConnections) : Prop :=
  ∃ converted, mapConnectionsByDestinationChecked connections = .ok converted ∧
    (links converted).Perm ((links connections).map Link.transpose) ∧
    ∃ back, mapConnectionsByDestinationChecked converted = .ok back ∧
      (links back).Perm (links connections)

def Callable {ν : Type} (object : OrderedMap String (OrderedMap String ν)) : Prop :=
  "hasOwnProperty" ∉ object.keys ∧
    ∀ name byType, object.get? name = some byType → "hasOwnProperty" ∉ byType.keys

/-- The method can be called on the map and on the result, and no name sets a prototype, neither of
the result nor of what comes back. -/
def Mappable (connections : IConnections) : Prop :=
  Callable connections ∧ ∀ link ∈ links connections,
    link.source ≠ "__proto__" ∧ link.out.type ≠ "__proto__" ∧
    link.out.connection.node ∉ ["hasOwnProperty", "__proto__"] ∧
    link.out.connection.type ∉ ["hasOwnProperty", "__proto__"]

/-! ## Links as multisets -/

section Links

variable {ν : Type} {source type : String} {slots : List (List IConnection)} {n index : ℕ}
  {connection : IConnection}

theorem objectEntries_perm (object : OrderedMap String ν) :
    (objectEntries object).Perm object.entries := by
  refine (List.perm_ext_iff_of_nodup ?_ object.nodup.of_map).mpr fun entry => ?_
  · refine (nodup_objectKeys object.nodup).filterMap fun name name' entry h h' => ?_
    obtain ⟨value, _, hname⟩ := Option.map_eq_some_iff.mp h
    obtain ⟨value', _, hname'⟩ := Option.map_eq_some_iff.mp h'
    exact congrArg Prod.fst (hname.trans hname'.symm)
  · exact mem_objectEntries.trans get?_eq_some

theorem coe_flatMap_objectEntries {β : Type} (object : OrderedMap String ν)
    (f : String → ν → List β) :
    (↑((objectEntries object).flatMap fun entry => f entry.1 entry.2) : Multiset β) =
      object.total fun name value => (f name value : Multiset β) := by
  rw [Multiset.coe_eq_coe.mpr ((objectEntries_perm object).flatMap_right _), total]
  induction object.entries with
  | nil => rfl
  | cons entry entries ih =>
    rw [List.flatMap_cons, ← Multiset.coe_add, ih, List.map_cons, List.sum_cons]

theorem links_eq_flatMap_typeLinks (connections : IConnections) : links connections =
    (objectEntries connections).flatMap fun entry =>
      (objectEntries entry.2).flatMap fun slots => typeLinks entry.1 slots.1 slots.2 := by
  simp only [links, outgoing, List.map_flatMap, List.map_map, typeLinks]
  rfl

/-- The links out of a node. -/
def bagOf (source : String) (byType : ConnectionsInto) : Multiset Link :=
  byType.total fun type slots => (typeLinks source type (slots.map some) : Multiset Link)

theorem coe_links (groups : DestinationGroups) :
    (links (groups.mapValues fun byType => byType.mapValues fun slots => slots.map some) :
      Multiset Link) = groups.total bagOf := by
  rw [links_eq_flatMap_typeLinks, coe_flatMap_objectEntries _ fun source byType =>
    (objectEntries byType).flatMap fun slots => typeLinks source slots.1 slots.2,
    total_mapValues]
  refine total_congr fun source byType => ?_
  exact (coe_flatMap_objectEntries _ fun type slots => typeLinks source type slots).trans
    total_mapValues

/-! ### The arrays -/

theorem typeLinks_some : typeLinks source type (slots.map some) =
    slots.zipIdx.flatMap fun (connections, index) =>
      connections.map fun connection => ⟨source, type, index, connection⟩ := by
  simp only [typeLinks, List.zipIdx_map, List.flatMap_map]
  rfl

/-- A connection is put among those of its index. -/
theorem perm_modify (h : index < slots.length) :
    (((slots.modify index (· ++ [connection])).zipIdx n).flatMap fun (connections, index) =>
      connections.map fun connection => Link.mk source ⟨type, index, connection⟩).Perm
    (⟨source, type, n + index, connection⟩ :: (slots.zipIdx n).flatMap fun (connections, index) =>
      connections.map fun connection => Link.mk source ⟨type, index, connection⟩) := by
  induction slots generalizing index n with
  | nil => cases h
  | cons connections slots ih =>
    cases index with
    | zero =>
      simp only [List.modify_zero_cons, List.zipIdx_cons, List.flatMap_cons, List.map_append]
      rw [List.append_assoc]
      exact List.perm_middle
    | succ index =>
      have ih := @ih (n + 1) index (Nat.lt_of_succ_lt_succ h)
      rw [Nat.add_right_comm] at ih
      simp only [List.modify_succ_cons, List.zipIdx_cons, List.flatMap_cons]
      exact (ih.append_left _).trans List.perm_middle

/-- The array grows by indexes without connections. -/
theorem typeLinks_pushInto :
    (typeLinks source type ((pushInto slots index connection).map some)).Perm
      (⟨source, type, index, connection⟩ :: typeLinks source type (slots.map some)) := by
  have hlength : index < (slots ++ List.replicate (index + 1 - slots.length) []).length := by
    rw [List.length_append, List.length_replicate]
    omega
  have hgrown : typeLinks source type
      ((slots ++ List.replicate (index + 1 - slots.length) []).map some) =
        typeLinks source type (slots.map some) := by
    rw [typeLinks_some, typeLinks_some, List.zipIdx_append, List.flatMap_append]
    refine (congrArg _ (List.flatMap_eq_nil_iff.mpr fun x hx => ?_)).trans (List.append_nil _)
    have hx := List.mem_map_of_mem (f := Prod.fst) hx
    rw [List.zipIdx_map_fst] at hx
    obtain ⟨connections, i⟩ := x
    obtain rfl : connections = [] := List.eq_of_mem_replicate hx
    rfl
  rw [← hgrown, typeLinks_some, typeLinks_some, pushInto]
  simpa using perm_modify (n := 0) hlength

/-- **Regrouping** one more link adds it as it is seen from its destination. -/
theorem total_addByDestination (groups : DestinationGroups) (link : Link) :
    (addByDestination groups link).total bagOf = link.transpose ::ₘ groups.total bagOf := by
  obtain ⟨source, type, outputIndex, node, type', index⟩ := link
  set byType := (groups.get? node).getD .empty with hbyType
  set slots := (byType.get? type').getD [] with hslots
  set slots' := pushInto slots index ⟨source, type, outputIndex⟩ with hslots'
  -- what the sums over the objects lose and gain
  have hinner : bagOf node (byType.set type' slots') =
      ⟨node, type', index, source, type, outputIndex⟩ ::ₘ bagOf node byType := by
    have htotal := @OrderedMap.total_set _ _ _ byType type' slots' _ _ fun type slots =>
      (typeLinks node type (slots.map some) : Multiset Link)
    have hold : (byType.get? type').elim 0 (fun slots =>
        (typeLinks node type' (slots.map some) : Multiset Link)) =
          (typeLinks node type' (slots.map some) : Multiset Link) := by
      rw [hslots]
      cases byType.get? type' <;> rfl
    rw [hold, hslots', Multiset.coe_eq_coe.mpr typeLinks_pushInto, ← Multiset.cons_coe,
      Multiset.add_cons, ← Multiset.cons_add] at htotal
    exact add_right_cancel htotal
  have houter := @OrderedMap.total_set _ _ _ groups node (byType.set type' slots') _ _ bagOf
  have hold : (groups.get? node).elim 0 (bagOf node) = bagOf node byType := by
    rw [hbyType]
    cases groups.get? node <;> rfl
  rw [hold, hinner, Multiset.add_cons, ← Multiset.cons_add] at houter
  exact add_right_cancel houter

/-- **Regrouping keeps the links**, seen from their destinations. -/
theorem links_mapConnectionsByDestination_perm (connections : IConnections) :
    (links (mapConnectionsByDestination connections)).Perm
      ((links connections).map Link.transpose) := by
  rw [← Multiset.coe_eq_coe, mapConnectionsByDestination, coe_links, destinationGroups]
  suffices h : ∀ (list : List Link) (groups : DestinationGroups),
      (list.foldl addByDestination groups).total bagOf =
        (list.map Link.transpose : List Link) + groups.total bagOf by
    rw [h, total_empty, add_zero]
  intro list
  induction list with
  | nil =>
    intro groups
    exact (zero_add _).symm
  | cons link list ih =>
    intro groups
    rw [List.foldl_cons, ih, total_addByDestination, Multiset.add_cons, List.map_cons,
      ← Multiset.cons_coe, Multiset.cons_add]

end Links

/-! ## One turn -/

section Turn

variable {object object' : ReturnConnection} {link : Link} {connections : IConnections}

/-- The object that is built has no keys that stand in for the method. -/
def ReturnConnection.IsCallable (object : ReturnConnection) : Prop :=
  "hasOwnProperty" ∉ object.inherited.keys ∧ Callable object.own

theorem not_mem_keys_getD (h : Callable object.own) (node : String) :
    "hasOwnProperty" ∉ ((object.own.get? node).getD .empty).keys := by
  cases hget : object.own.get? node with
  | none => exact List.not_mem_nil
  | some byType => exact h.2 node byType hget

/-- What is read under a name is the default if there is nothing. -/
theorem getD_of_isSome {ν : Type} (value : Option ν) (default : ν) :
    (if value.isSome then value.getD default else default) = value.getD default := by
  cases value <;> rfl

theorem addConnection_eq (h : object.IsCallable) : addConnection object link =
    let connectionInfo := link.out.connection
    let byType := (object.own.get? connectionInfo.node).getD .empty
    .ok (object.assign connectionInfo.node (assignType byType connectionInfo.type
      (pushInto ((byType.get? connectionInfo.type).getD []) connectionInfo.index
        ⟨link.source, link.out.type, link.out.outputIndex⟩))) := by
  have hnode : object.hasOwnProperty link.out.connection.node =
      .ok (object.own.get? link.out.connection.node).isSome :=
    (if_neg h.1).trans (hasOwnProperty_eq h.2.1 _)
  have htype := hasOwnProperty_eq (not_mem_keys_getD h.2 link.out.connection.node)
  simp only [addConnection, hnode, bind, Except.bind, getD_of_isSome, htype]
  rfl

/-- **A turn** for a connection whose names are keys like others records it at its destination. -/
theorem addConnection_ok (h : object.IsCallable)
    (hnode : link.out.connection.node ∉ ["hasOwnProperty", "__proto__"])
    (htype : link.out.connection.type ∉ ["hasOwnProperty", "__proto__"]) :
    addConnection object link = .ok { object with own := addByDestination object.own link } ∧
      ReturnConnection.IsCallable { object with own := addByDestination object.own link } := by
  simp only [List.mem_cons, List.not_mem_nil, or_false, not_or] at hnode htype
  refine ⟨?_, h.1, ?_, fun name found hget => ?_⟩
  · rw [addConnection_eq h]
    simp only [ReturnConnection.assign, if_neg hnode.2, assignType, if_neg htype.2]
    rfl
  · rw [addByDestination, mem_keys_set]
    exact not_or.mpr ⟨Ne.symm hnode.1, h.2.1⟩
  · rw [addByDestination, get?_set] at hget
    split_ifs at hget
    · cases hget
      rw [mem_keys_set]
      exact not_or.mpr ⟨Ne.symm htype.1, not_mem_keys_getD h.2 _⟩
    · exact h.2.2 name found hget

/-- A turn sets one name, to an object that had no key, or the keys of the one under that name. -/
theorem exists_of_addConnection (h : addConnection object link = .ok object') :
    ∃ byType slots, (byType = .empty ∨ object.own.get? link.out.connection.node = some byType) ∧
      object' = object.assign link.out.connection.node
        (assignType byType link.out.connection.type slots) := by
  obtain ⟨hasNode, -, h⟩ := bind_eq_ok.mp h
  obtain ⟨hasType, -, h⟩ := bind_eq_ok.mp h
  refine ⟨_, _, ?_, (Except.ok.inj h).symm⟩
  cases hasNode with
  | false => exact .inl rfl
  | true =>
    cases hget : object.own.get? link.out.connection.node with
    | none => exact .inl rfl
    | some byType => exact .inr rfl

/-- No key is called `__proto__`. -/
def NoProtoKey (own : OrderedMap String ConnectionsInto) : Prop :=
  "__proto__" ∉ own.keys ∧ ∀ name byType, own.get? name = some byType → "__proto__" ∉ byType.keys

theorem NoProtoKey.addConnection (hown : NoProtoKey object.own)
    (h : addConnection object link = .ok object') : NoProtoKey object'.own := by
  obtain ⟨byType, slots, hbyType, rfl⟩ := exists_of_addConnection h
  have hkeys : "__proto__" ∉ byType.keys := by
    rcases hbyType with rfl | hget
    · exact List.not_mem_nil
    · exact hown.2 _ _ hget
  have hassign : "__proto__" ∉ (assignType byType link.out.connection.type slots).keys := by
    unfold assignType
    split_ifs with htype
    · exact hkeys
    · rw [mem_keys_set]
      exact not_or.mpr ⟨Ne.symm htype, hkeys⟩
  unfold ReturnConnection.assign
  split_ifs with hnode
  · exact hown
  · refine ⟨?_, fun name found hget => ?_⟩
    · rw [mem_keys_set]
      exact not_or.mpr ⟨Ne.symm hnode, hown.1⟩
    · rw [get?_set] at hget
      split_ifs at hget
      · exact Option.some.inj hget ▸ hassign
      · exact hown.2 name found hget

end Turn

/-! ## All turns -/

section Conversion

variable {connections converted : IConnections}

/-- Where the method can be called, the turns are those for the links of the map. -/
theorem mapConnectionsByDestinationChecked_eq (h : Callable connections) :
    mapConnectionsByDestinationChecked connections = ReturnConnection.connections <$>
      (links connections).foldlM addConnection ⟨.empty, .empty⟩ := by
  have htypes : ∀ entry ∈ objectEntries connections, ∀ returnConnection,
      addSource connections returnConnection entry =
        ((objectEntries entry.2).flatMap fun slots => typeLinks entry.1 slots.1 slots.2).foldlM
          addConnection returnConnection := by
    rintro ⟨source, byType⟩ hentry returnConnection
    have hget := mem_objectEntries.mp hentry
    rw [foldlM_flatMap, addSource, hasOwnProperty_eq h.1, hget]
    refine foldlM_congr_of_mem (fun slots hslots object => ?_) returnConnection
    have hslot := mem_objectEntries.mp (show (slots.1, slots.2) ∈ objectEntries byType from hslots)
    rw [addType, hasOwnProperty_eq (h.2 source byType hget), hslot]
    rfl
  rw [mapConnectionsByDestinationChecked, foldlM_congr_of_mem htypes, links_eq_flatMap_typeLinks,
    foldlM_flatMap]
  rfl

/-- Where the method cannot be called, the conversion throws. -/
theorem mapConnectionsByDestinationChecked_error (h : ¬ Callable connections) :
    ∃ error, mapConnectionsByDestinationChecked connections = .error error := by
  suffices hfail : ∃ entry ∈ objectEntries connections, ∀ returnConnection,
      ∃ error, addSource connections returnConnection entry = .error error by
    obtain ⟨error, herror⟩ := exists_foldlM_error hfail ⟨.empty, .empty⟩
    exact ⟨error, by rw [mapConnectionsByDestinationChecked, herror]; rfl⟩
  by_cases hkeys : "hasOwnProperty" ∈ connections.keys
  · obtain ⟨byType, hget⟩ := mem_keys.mp hkeys
    refine ⟨("hasOwnProperty", byType), mem_objectEntries.mpr hget, fun returnConnection => ?_⟩
    exact ⟨_, by rw [addSource, hasOwnProperty, if_pos hkeys]; rfl⟩
  · obtain ⟨source, byType, hget, hmem⟩ : ∃ source byType, connections.get? source = some byType ∧
        "hasOwnProperty" ∈ byType.keys := by
      by_contra hnone
      exact h ⟨hkeys, fun source byType hget hmem => hnone ⟨source, byType, hget, hmem⟩⟩
    obtain ⟨slots, hslots⟩ := mem_keys.mp hmem
    refine ⟨(source, byType), mem_objectEntries.mpr hget, fun returnConnection => ?_⟩
    obtain ⟨error, herror⟩ := exists_foldlM_error (f := addType source byType)
      ⟨_, mem_objectEntries.mpr hslots, fun object =>
        ⟨_, by rw [addType, hasOwnProperty, if_pos hmem]; rfl⟩⟩ returnConnection
    exact ⟨error, by rw [addSource, hasOwnProperty_eq hkeys, hget]; exact herror⟩

theorem callable_of_ok (h : mapConnectionsByDestinationChecked connections = .ok converted) :
    Callable connections := by
  by_contra hnot
  obtain ⟨error, herror⟩ := mapConnectionsByDestinationChecked_error hnot
  rw [herror] at h
  cases h

/-- **The conversion regroups** where the names are keys like others. -/
theorem mapConnectionsByDestinationChecked_ok (h : Mappable connections) :
    mapConnectionsByDestinationChecked connections = .ok (mapConnectionsByDestination connections) ∧
      Callable (mapConnectionsByDestination connections) := by
  obtain ⟨object, hrun, hcallable, rfl⟩ : ∃ object,
      (links connections).foldlM addConnection ⟨.empty, .empty⟩ = .ok object ∧ object.IsCallable ∧
        object = ⟨destinationGroups connections, .empty⟩ := by
    apply exists_foldlM_of_keeps (I := fun (done : List Link) (object : ReturnConnection) =>
      object.IsCallable ∧ object = ⟨done.foldl addByDestination .empty, .empty⟩)
    · refine ⟨⟨List.not_mem_nil, List.not_mem_nil, ?_⟩, rfl⟩
      intro name byType hget
      cases hget
    · rintro link hlink done object ⟨hcallable, rfl⟩
      obtain ⟨-, -, hnode, htype⟩ := h.2 link hlink
      obtain ⟨hstep, hcallable⟩ := addConnection_ok hcallable hnode htype
      refine ⟨_, hstep, hcallable, ?_⟩
      rw [List.foldl_concat]
  refine ⟨?_, ?_, ?_⟩
  · rw [mapConnectionsByDestinationChecked_eq h.1, hrun]
    rfl
  · rw [mapConnectionsByDestination, keys_mapValues]
    exact hcallable.2.1
  · intro name byType hget
    rw [mapConnectionsByDestination, get?_mapValues, Option.map_eq_some_iff] at hget
    obtain ⟨found, hget, rfl⟩ := hget
    rw [keys_mapValues]
    exact hcallable.2.2 name found hget

/-- No link of the result comes from a node, or is of a type, that is called `__proto__`. -/
theorem ne_proto_of_mem_links (h : mapConnectionsByDestinationChecked connections = .ok converted)
    {link : Link} (hlink : link ∈ links converted) :
    link.source ≠ "__proto__" ∧ link.out.type ≠ "__proto__" := by
  rw [mapConnectionsByDestinationChecked_eq (callable_of_ok h)] at h
  obtain ⟨object, hrun, rfl⟩ := map_eq_ok.mp h
  have hown : NoProtoKey object.own := foldlM_invariant (I := fun _ object => NoProtoKey object.own)
    hrun ⟨List.not_mem_nil, by intro _ _ hget; cases hget⟩ fun _ hown hstep =>
      hown.addConnection hstep
  obtain ⟨byType, hget, hout⟩ := mem_links.mp hlink
  obtain ⟨outputs, hslots, -⟩ := mem_outgoing.mp hout
  rw [ReturnConnection.connections, get?_mapValues, Option.map_eq_some_iff] at hget
  obtain ⟨found, hget, rfl⟩ := hget
  constructor
  · intro heq
    exact hown.1 (mem_keys.mpr ⟨found, heq ▸ hget⟩)
  · intro heq
    have htype := mem_keys.mpr ⟨outputs, hslots⟩
    rw [keys_mapValues, heq] at htype
    exact hown.2 _ _ hget htype

/-- Where the method can be called on a map, no link has its name as source or as type. -/
theorem Callable.ne_of_mem_links (h : Callable connections) {link : Link}
    (hlink : link ∈ links connections) :
    link.source ≠ "hasOwnProperty" ∧ link.out.type ≠ "hasOwnProperty" := by
  obtain ⟨byType, hget, hout⟩ := mem_links.mp hlink
  obtain ⟨outputs, hslots, -⟩ := mem_outgoing.mp hout
  constructor
  · intro heq
    exact h.1 (mem_keys.mpr ⟨byType, heq ▸ hget⟩)
  · intro heq
    exact h.2 _ _ hget (mem_keys.mpr ⟨outputs, heq ▸ hslots⟩)

/-- What the links of a result have as names, the links of the map had as the names of their
destinations, and the other way round. -/
theorem Mappable.mapConnectionsByDestination (h : Mappable connections) :
    Mappable (mapConnectionsByDestination connections) := by
  refine ⟨(mapConnectionsByDestinationChecked_ok h).2, fun link hlink => ?_⟩
  rw [(links_mapConnectionsByDestination_perm connections).mem_iff] at hlink
  obtain ⟨link, hmem, rfl⟩ := List.mem_map.mp hlink
  obtain ⟨hsource, htype, hnode, htype'⟩ := h.2 link hmem
  have hne := h.1.ne_of_mem_links hmem
  simp only [List.mem_cons, List.not_mem_nil, or_false, not_or] at hnode htype' ⊢
  exact ⟨hnode.2, htype'.2, ⟨hne.1, hsource⟩, ⟨hne.2, htype⟩⟩

/-- **No link is lost** exactly if the method can be called on the map, no link leads to a node or a
type that is called like the method, and none has `__proto__` as the name of a node or a type. -/
theorem losesNoLink_iff (connections : IConnections) :
    LosesNoLink connections ↔ Mappable connections := by
  constructor
  · rintro ⟨converted, hconverted, hlinks, back, hback, hlinks'⟩
    refine ⟨callable_of_ok hconverted, fun link hlink => ?_⟩
    have hswap : link.transpose ∈ links converted :=
      hlinks.mem_iff.mpr (List.mem_map_of_mem hlink)
    -- what comes back has the names of the sources, the result those of the destinations
    obtain ⟨hsource, htype⟩ := ne_proto_of_mem_links hback (hlinks'.mem_iff.mpr hlink)
    obtain ⟨hnode, htype'⟩ := ne_proto_of_mem_links hconverted hswap
    have hne := (callable_of_ok hback).ne_of_mem_links hswap
    simp only [List.mem_cons, List.not_mem_nil, or_false, not_or]
    exact ⟨hsource, htype, ⟨hne.1, hnode⟩, ⟨hne.2, htype'⟩⟩
  · intro h
    have hlinks := links_mapConnectionsByDestination_perm connections
    refine ⟨_, (mapConnectionsByDestinationChecked_ok h).1, hlinks, _,
      (mapConnectionsByDestinationChecked_ok h.mapConnectionsByDestination).1, ?_⟩
    refine (links_mapConnectionsByDestination_perm _).trans ?_
    have htwice := hlinks.map Link.transpose
    rwa [List.map_map, show Link.transpose ∘ Link.transpose = id from rfl, List.map_id] at htwice

end Conversion

/-- A node called `hasOwnProperty` with a connection to another node. -/
def sourceLikeMethod : IConnections :=
  OrderedMap.empty.set "hasOwnProperty" (OrderedMap.empty.set "main" [some [⟨"Set", "main", 0⟩]])

theorem not_losesNoLink : ¬ LosesNoLink sourceLikeMethod := by
  rw [LosesNoLink]
  rintro ⟨converted, hconverted, -⟩
  exact (callable_of_ok hconverted).1 (by decide)

end N8n.Workflows
