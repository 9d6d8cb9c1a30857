import N8n.Workflows.WorkflowDiff

/-!
# The difference of two connection maps

`compareConnections` groups the connections of each slot by value and reports the surplus of either
side. Seen as multisets, what it reports of a slot is the difference of the two sides, as long as
the records it reports in can hold the names of the node and of the type: a plain object already
has an inherited property under some names.

## Main definitions

* `compareConnectionsChecked`: the comparison with the error that it ends in on an inherited name
* `slotOf`, `reported`: the connections of a slot, and what is reported of it
* `ExactDifference`: what is reported is the multiset difference

## Main results

* `count_surplus`: the surplus of one list over another counts as the truncated difference
* `count_reported`: what the comparison reports of a slot is the surplus of the slot
* `exactDifference_iff`: the difference is exact unless a slot differs under an inherited name
-/

namespace N8n.Workflows

open OrderedMap

/-! ## Lists with keys -/

section Keyed

variable {α κ β : Type} [DecidableEq κ] {key : α → κ} {f : α → List β} {l : List α} {a : α}

theorem flatMap_of_key_ne {k : κ} (h : ∀ x ∈ l, key x ≠ k) :
    (l.flatMap fun x => if key x = k then f x else []) = [] := by
  rw [List.flatMap_eq_nil_iff]
  intro x hx
  rw [if_neg (h x hx)]

/-- Of a list with different keys only the element with the key contributes. -/
theorem flatMap_of_key (hnd : (l.map key).Nodup) (ha : a ∈ l) :
    (l.flatMap fun x => if key x = key a then f x else []) = f a := by
  induction l with
  | nil => exact absurd ha List.not_mem_nil
  | cons x l ih =>
    obtain ⟨hx, hnd⟩ := List.nodup_cons.mp hnd
    rw [List.flatMap_cons]
    rcases List.mem_cons.mp ha with rfl | ha
    · rw [if_pos rfl, flatMap_of_key_ne, List.append_nil]
      intro y hy heq
      exact hx (heq ▸ List.mem_map_of_mem hy)
    · have hne : key x ≠ key a := fun heq => hx (heq ▸ List.mem_map_of_mem ha)
      rw [if_neg hne, List.nil_append, ih hnd ha]

end Keyed

/-! ## The surplus of a list -/

section Surplus

variable {connections others : List IConnection} {c : IConnection}

theorem groupByValue_get? : ((groupByValue connections).get? c).getD [] =
    (connections.zipIdx.filter fun x => x.1 = c).map fun x => (x.2, x.1) := by
  suffices h : ∀ (xs : List (IConnection × ℕ))
      (m : OrderedMap IConnection (List (ℕ × IConnection))),
      ((xs.foldl (fun byValue c =>
        byValue.set c.1 (((byValue.get? c.1).getD []) ++ [(c.2, c.1)])) m).get? c).getD [] =
        (m.get? c).getD [] ++ (xs.filter fun x => x.1 = c).map fun x => (x.2, x.1) by
    rw [groupByValue, h, get?_empty, Option.getD_none, List.nil_append]
  intro xs
  induction xs with
  | nil =>
    intro m
    simp
  | cons x xs ih =>
    intro m
    rw [List.foldl_cons, ih]
    by_cases hx : x.1 = c
    · subst hx
      simp
    · rw [get?_set_of_ne (Ne.symm hx), List.filter_cons_of_neg (by simpa using hx)]

theorem length_groupByValue :
    (((groupByValue connections).get? c).getD []).length = connections.count c := by
  rw [groupByValue_get?, List.length_map, ← List.countP_eq_length_filter, List.count]
  conv_rhs => rw [← List.zipIdx_map_fst 0 connections, List.countP_map]
  apply List.countP_congr
  intro x _
  simp

theorem eq_of_mem_groupByValue {entry : IConnection × List (ℕ × IConnection)}
    (h : entry ∈ (groupByValue connections).entries) :
    entry.2 = ((groupByValue connections).get? entry.1).getD [] ∧
      ∀ value ∈ entry.2, value.2 = entry.1 := by
  have hget : (groupByValue connections).get? entry.1 = some entry.2 :=
    get?_eq_some.mpr h
  refine ⟨by rw [hget, Option.getD_some], fun value hvalue => ?_⟩
  have hgroup := @groupByValue_get? connections entry.1
  rw [hget, Option.getD_some] at hgroup
  rw [hgroup] at hvalue
  obtain ⟨x, hx, rfl⟩ := List.mem_map.mp hvalue
  simpa using (List.mem_filter.mp hx).2

/-- **The surplus counts as the truncated difference.** -/
theorem count_surplus (slot : ℕ) :
    ((surplus connections others slot).map ConnectionEntry.connection).count c =
      connections.count c - others.count c := by
  set kept := groupByValue others with hkept
  have hmap : (surplus connections others slot).map ConnectionEntry.connection =
      (groupByValue connections).entries.flatMap fun entry =>
        (entry.2.drop ((kept.get? entry.1).getD []).length).map Prod.snd := by
    rw [surplus, List.map_flatMap]
    simp only [List.map_map]
    rfl
  rw [hmap, List.count_eq_length_filter, List.filter_flatMap]
  -- the occurrences under another value are all left out, those under the value are all kept
  have hfilter : ∀ entry ∈ (groupByValue connections).entries,
      (((entry.2.drop ((kept.get? entry.1).getD []).length).map Prod.snd).filter fun x => x == c) =
        if entry.1 = c then (entry.2.drop ((kept.get? entry.1).getD []).length).map Prod.snd
        else [] := by
    intro entry hentry
    have hvalue := (eq_of_mem_groupByValue hentry).2
    split_ifs with hc
    · rw [List.filter_eq_self]
      rintro _ hx
      obtain ⟨value, hmem, rfl⟩ := List.mem_map.mp hx
      simp [hvalue value (List.mem_of_mem_drop hmem), hc]
    · rw [List.filter_eq_nil_iff]
      rintro _ hx
      obtain ⟨value, hmem, rfl⟩ := List.mem_map.mp hx
      simp [hvalue value (List.mem_of_mem_drop hmem), hc]
  rw [List.flatMap_congr hfilter]
  by_cases hin : ∃ entry ∈ (groupByValue connections).entries, entry.1 = c
  · obtain ⟨entry, hentry, rfl⟩ := hin
    rw [flatMap_of_key (groupByValue connections).nodup hentry, List.length_map, List.length_drop,
      hkept, length_groupByValue, (eq_of_mem_groupByValue hentry).1, length_groupByValue]
  · push Not at hin
    rw [flatMap_of_key_ne hin, List.length_nil]
    have hnone : (groupByValue connections).get? c = none := by
      rw [get?_eq_none]
      intro hc
      obtain ⟨entry, hentry, heq⟩ := List.mem_map.mp hc
      exact hin entry hentry heq
    rw [← length_groupByValue, hnone]
    simp

end Surplus

/-! ## Slots -/

def slotOf (connections : IConnections) (node type : String) (slot : ℕ) : List IConnection :=
  connectionsAt ((((connections.get? node).getD OrderedMap.empty).get? type).getD []) slot

def reported (diff : OrderedMap String INodeConnectionsDiff) (node type : String) (slot : ℕ) :
    List IConnection :=
  ((((((diff.get? node).getD OrderedMap.empty).get? type).getD []).filter fun entry =>
    entry.sourceIndex = slot)).map ConnectionEntry.connection

def inputKey (input : String × String × ℕ × List IConnection × List IConnection) :
    String × String × ℕ :=
  (input.1, input.2.1, input.2.2.1)

def compareInput (diff : ConnectionsDiff)
    (input : String × String × ℕ × List IConnection × List IConnection) : ConnectionsDiff :=
  ⟨recordEntries diff.added input.1 input.2.1
      (surplus input.2.2.2.2 input.2.2.2.1 input.2.2.1),
    recordEntries diff.removed input.1 input.2.1
      (surplus input.2.2.2.1 input.2.2.2.2 input.2.2.1)⟩

theorem compareConnections_eq (prev next : IConnections) : compareConnections prev next =
    (inputsOfBoth prev next).foldl compareInput ⟨empty, empty⟩ := rfl

theorem nodup_keysOfBoth {ν : Type} (prev next : OrderedMap String ν) :
    (keysOfBoth prev next).Nodup := by
  rw [keysOfBoth, List.nodup_append]
  refine ⟨nodup_objectKeys prev.nodup, (nodup_objectKeys next.nodup).filter _, ?_⟩
  rintro a ha b hb rfl
  exact absurd (mem_objectKeys.mp ha) (by simpa using (List.mem_filter.mp hb).2)

theorem mem_keysOfBoth {ν : Type} {prev next : OrderedMap String ν} {name : String} :
    name ∈ keysOfBoth prev next ↔ name ∈ prev.keys ∨ name ∈ next.keys := by
  simp only [keysOfBoth, List.mem_append, List.mem_filter, mem_objectKeys, decide_not,
    Bool.not_eq_true', decide_eq_false_iff_not]
  by_cases h : name ∈ prev.keys <;> simp [h]

section Inputs

variable {prev next : IConnections}

theorem mem_inputsOfBoth {node type : String} {slot : ℕ} {before after : List IConnection}
    (h : (node, type, slot, before, after) ∈ inputsOfBoth prev next) :
    before = slotOf prev node type slot ∧ after = slotOf next node type slot := by
  simp only [inputsOfBoth, List.mem_flatMap, List.mem_map, Prod.mk.injEq] at h
  obtain ⟨_, -, _, -, _, -, rfl, rfl, rfl, rfl, rfl⟩ := h
  exact ⟨rfl, rfl⟩

/-- A slot in which something is stored is compared. -/
theorem mem_inputsOfBoth_of_ne {node type : String} {slot : ℕ}
    (h : slotOf prev node type slot ≠ [] ∨ slotOf next node type slot ≠ []) :
    (node, type, slot, slotOf prev node type slot, slotOf next node type slot) ∈
      inputsOfBoth prev next := by
  have hstored : ∀ {connections : IConnections}, slotOf connections node type slot ≠ [] →
      node ∈ connections.keys ∧
      type ∈ ((connections.get? node).getD empty).keys ∧
      slot < ((((connections.get? node).getD empty).get? type).getD []).length := by
    intro connections hne
    refine ⟨?_, ?_, ?_⟩
    · by_contra hnode
      rw [← get?_eq_none] at hnode
      simp [slotOf, hnode, connectionsAt, WorkflowExecute.at?] at hne
    · by_contra htype
      rw [← get?_eq_none] at htype
      simp [slotOf, htype, connectionsAt, WorkflowExecute.at?] at hne
    · by_contra hslot
      apply hne
      rw [slotOf, connectionsAt, WorkflowExecute.at?, List.getElem?_eq_none (not_lt.mp hslot)]
      rfl
  simp only [inputsOfBoth, List.mem_flatMap, List.mem_map, List.mem_range, mem_keysOfBoth]
  rcases h with hne | hne
  · obtain ⟨hnode, htype, hslot⟩ := hstored hne
    exact ⟨node, .inl hnode, type, .inl htype, slot, by omega, rfl⟩
  · obtain ⟨hnode, htype, hslot⟩ := hstored hne
    exact ⟨node, .inr hnode, type, .inr htype, slot, by omega, rfl⟩

/-- No slot is compared twice. -/
theorem nodup_inputsOfBoth : ((inputsOfBoth prev next).map inputKey).Nodup := by
  simp only [inputsOfBoth, List.map_flatMap, List.map_map]
  rw [List.nodup_flatMap]
  refine ⟨fun node _ => ?_, ?_⟩
  · rw [List.nodup_flatMap]
    refine ⟨fun type _ => ?_, ?_⟩
    · apply List.nodup_range.map
      intro i j hij
      exact (Prod.mk.inj (Prod.mk.inj hij).2).2
    · refine (nodup_keysOfBoth _ _).imp fun hne input hin hin' => ?_
      obtain ⟨_, -, rfl⟩ := List.mem_map.mp hin
      obtain ⟨_, -, heq⟩ := List.mem_map.mp hin'
      exact hne (Prod.mk.inj (Prod.mk.inj heq).2).1.symm
  · refine (nodup_keysOfBoth _ _).imp fun hne input hin hin' => ?_
    simp only [List.mem_flatMap, List.mem_map] at hin hin'
    obtain ⟨_, -, _, -, rfl⟩ := hin
    obtain ⟨_, -, _, -, heq⟩ := hin'
    exact hne (Prod.mk.inj heq).1.symm

end Inputs

/-! ## What is reported of a slot -/

section Reported

variable {node type : String} {slot : ℕ} {connections others : List IConnection}

theorem sourceIndex_of_mem_surplus {sourceIndex : ℕ} {entry : ConnectionEntry}
    (h : entry ∈ surplus connections others sourceIndex) : entry.sourceIndex = sourceIndex := by
  simp only [surplus, List.mem_flatMap, List.mem_map] at h
  obtain ⟨_, -, _, -, rfl⟩ := h
  rfl

/-- One more record adds its entries to its own slot. A node with an inherited name gets none. -/
theorem reported_recordEntries {diff : OrderedMap String INodeConnectionsDiff}
    {nodeName inputName : String} {sourceIndex : ℕ} :
    reported (recordEntries diff nodeName inputName (surplus connections others sourceIndex))
        node type slot = reported diff node type slot ++
      if (nodeName, inputName, sourceIndex) = (node, type, slot) then
        if node ∈ objectPrototypeNames then []
        else (surplus connections others sourceIndex).map ConnectionEntry.connection
      else [] := by
  have hown : ((surplus connections others sourceIndex).filter fun entry =>
      entry.sourceIndex = sourceIndex) = surplus connections others sourceIndex := by
    rw [List.filter_eq_self]
    intro entry hentry
    simpa using sourceIndex_of_mem_surplus hentry
  have hother : slot ≠ sourceIndex → ((surplus connections others sourceIndex).filter fun entry =>
      entry.sourceIndex = slot) = [] := by
    intro hne
    rw [List.filter_eq_nil_iff]
    intro entry hentry heq
    exact hne ((by simpa using heq : _ = _).symm.trans (sourceIndex_of_mem_surplus hentry))
  unfold recordEntries
  split_ifs with hskip heq hproto heq hproto
  · simp
  · obtain ⟨rfl, rfl, rfl⟩ : nodeName = node ∧ inputName = type ∧ sourceIndex = slot := by
      simpa using heq
    have hnil : surplus connections others sourceIndex = [] := by
      simpa [hproto] using hskip
    simp [hnil]
  · simp
  · obtain ⟨rfl, rfl, rfl⟩ : nodeName = node ∧ inputName = type ∧ sourceIndex = slot := by
      simpa using heq
    exact absurd (.inr hproto) hskip
  · obtain ⟨rfl, rfl, rfl⟩ : nodeName = node ∧ inputName = type ∧ sourceIndex = slot := by
      simpa using heq
    simp only [reported, get?_set_self, Option.getD_some, List.filter_append,
      List.map_append, hown]
  · rw [List.append_nil, reported, reported]
    by_cases hnode : node = nodeName
    · subst hnode
      rw [get?_set_self, Option.getD_some]
      by_cases htype : type = inputName
      · subst htype
        have hslot : slot ≠ sourceIndex := by
          rintro rfl
          exact heq rfl
        rw [get?_set_self, Option.getD_some, List.filter_append, hother hslot,
          List.append_nil]
      · rw [get?_set_of_ne htype]
    · rw [get?_set_of_ne hnode]

variable {prev next : IConnections}

/-- **What is reported of a slot** is its surplus, where the node has a name of its own. -/
theorem reported_compareConnections :
    reported (compareConnections prev next).added node type slot =
      (if node ∈ objectPrototypeNames then [] else
        (surplus (slotOf next node type slot) (slotOf prev node type slot) slot).map
          ConnectionEntry.connection) ∧
    reported (compareConnections prev next).removed node type slot =
      (if node ∈ objectPrototypeNames then [] else
        (surplus (slotOf prev node type slot) (slotOf next node type slot) slot).map
          ConnectionEntry.connection) := by
  -- what an input contributes to the slot on either side
  set added := fun input : String × String × ℕ × List IConnection × List IConnection =>
    if node ∈ objectPrototypeNames then []
    else (surplus input.2.2.2.2 input.2.2.2.1 input.2.2.1).map ConnectionEntry.connection
    with hadded
  set removed := fun input : String × String × ℕ × List IConnection × List IConnection =>
    if node ∈ objectPrototypeNames then []
    else (surplus input.2.2.2.1 input.2.2.2.2 input.2.2.1).map ConnectionEntry.connection
    with hremoved
  have hfold : ∀ (inputs : List (String × String × ℕ × List IConnection × List IConnection))
      (diff : ConnectionsDiff),
      reported (inputs.foldl compareInput diff).added node type slot =
        reported diff.added node type slot ++ inputs.flatMap (fun input =>
          if inputKey input = (node, type, slot) then added input else []) ∧
      reported (inputs.foldl compareInput diff).removed node type slot =
        reported diff.removed node type slot ++ inputs.flatMap (fun input =>
          if inputKey input = (node, type, slot) then removed input else []) := by
    intro inputs
    induction inputs with
    | nil =>
      intro diff
      simp
    | cons input inputs ih =>
      intro diff
      rw [List.foldl_cons, (ih _).1, (ih _).2, compareInput, reported_recordEntries,
        reported_recordEntries, List.flatMap_cons, List.flatMap_cons, List.append_assoc,
        List.append_assoc]
      exact ⟨rfl, rfl⟩
  have hstart : reported empty node type slot = [] := rfl
  rw [compareConnections_eq, (hfold _ _).1, (hfold _ _).2, hstart, List.nil_append, List.nil_append]
  by_cases hin : ∃ input ∈ inputsOfBoth prev next, inputKey input = (node, type, slot)
  · obtain ⟨⟨_, _, _, before, after⟩, hin, hkey⟩ := hin
    obtain ⟨rfl, rfl, rfl⟩ := by simpa [inputKey] using hkey
    obtain ⟨rfl, rfl⟩ := mem_inputsOfBoth hin
    rw [← hkey, flatMap_of_key nodup_inputsOfBoth hin, flatMap_of_key nodup_inputsOfBoth hin]
    exact ⟨rfl, rfl⟩
  · -- a slot that is not compared holds nothing
    have hnil : slotOf prev node type slot = [] ∧ slotOf next node type slot = [] := by
      by_contra hne
      exact hin ⟨_, mem_inputsOfBoth_of_ne (not_and_or.mp hne), rfl⟩
    push Not at hin
    rw [flatMap_of_key_ne hin, flatMap_of_key_ne hin, hnil.1, hnil.2, surplus_self]
    simp

end Reported

/-! ## The comparison with its errors -/

/-- Push entries under a node and a type. The record of a node is a plain object: under the name of
a type that every object inherits it holds no array to push to. (Where only one side has the type
`__proto__`, its connections are not compared at all.) -/
def pushEntries (diff : OrderedMap String INodeConnectionsDiff) (nodeName inputName : String)
    (entries : List ConnectionEntry) : Except String (OrderedMap String INodeConnectionsDiff) :=
  if entries ≠ [] ∧ nodeName ∉ objectPrototypeNames ∧ inputName ∈ objectPrototypeNames then
    throw "push is not a function"
  else pure (recordEntries diff nodeName inputName entries)

def compareInputChecked (diff : ConnectionsDiff)
    (input : String × String × ℕ × List IConnection × List IConnection) :
    Except String ConnectionsDiff := do
  let added ← pushEntries diff.added input.1 input.2.1
    (surplus input.2.2.2.2 input.2.2.2.1 input.2.2.1)
  let removed ← pushEntries diff.removed input.1 input.2.1
    (surplus input.2.2.2.1 input.2.2.2.2 input.2.2.1)
  pure ⟨added, removed⟩

/-- `compareConnections` with the error that it may end in. -/
def compareConnectionsChecked (prev next : IConnections) : Except String ConnectionsDiff :=
  (inputsOfBoth prev next).foldlM compareInputChecked ⟨OrderedMap.empty, OrderedMap.empty⟩

/-- The input differs under a type that every object inherits. -/
def Stuck (input : String × String × ℕ × List IConnection × List IConnection) : Prop :=
  (surplus input.2.2.2.2 input.2.2.2.1 input.2.2.1 ≠ [] ∨
    surplus input.2.2.2.1 input.2.2.2.2 input.2.2.1 ≠ []) ∧
  input.1 ∉ objectPrototypeNames ∧ input.2.1 ∈ objectPrototypeNames

section Checked

variable {diff : ConnectionsDiff}
  {input : String × String × ℕ × List IConnection × List IConnection}

theorem compareInputChecked_of_stuck (h : Stuck input) :
    compareInputChecked diff input = .error "push is not a function" := by
  obtain ⟨hne, hnode, htype⟩ := h
  unfold compareInputChecked pushEntries
  by_cases hadded : surplus input.2.2.2.2 input.2.2.2.1 input.2.2.1 = []
  · have hremoved := hne.resolve_left (not_not.mpr hadded)
    rw [if_neg (fun h => h.1 hadded), if_pos ⟨hremoved, hnode, htype⟩]
    rfl
  · rw [if_pos ⟨hadded, hnode, htype⟩]
    rfl

theorem compareInputChecked_of_not_stuck (h : ¬ Stuck input) :
    compareInputChecked diff input = .ok (compareInput diff input) := by
  unfold compareInputChecked pushEntries
  rw [if_neg fun ha => h ⟨.inl ha.1, ha.2⟩, if_neg fun ha => h ⟨.inr ha.1, ha.2⟩]
  rfl

/-- The comparison ends in an error exactly if some input is stuck. -/
theorem compareConnectionsChecked_eq_ok {prev next : IConnections} :
    compareConnectionsChecked prev next = .ok diff ↔
      (∀ input ∈ inputsOfBoth prev next, ¬ Stuck input) ∧
        compareConnections prev next = diff := by
  rw [compareConnectionsChecked, compareConnections_eq]
  generalize inputsOfBoth prev next = inputs
  generalize ConnectionsDiff.mk empty empty = start
  induction inputs generalizing start with
  | nil => simp [pure, Except.pure]
  | cons input inputs ih =>
    rw [List.foldlM_cons, List.foldl_cons, List.forall_mem_cons]
    by_cases hstuck : Stuck input
    · rw [compareInputChecked_of_stuck hstuck]
      refine ⟨fun h => ?_, fun h => absurd hstuck h.1.1⟩
      cases h
    · rw [compareInputChecked_of_not_stuck hstuck]
      refine (ih _).trans ⟨fun h => ⟨⟨hstuck, h.1⟩, h.2⟩, fun h => ⟨h.1.2, h.2⟩⟩

end Checked

/-! ## The difference is exact -/

/-- What is reported is the multiset difference of two connection maps. -/
structure ExactDifference (prev next : IConnections) (diff : ConnectionsDiff) : Prop where
  /-- Of every connection the occurrences gained are those reported. -/
  count : ∀ node type slot c,
    ((slotOf next node type slot).count c : ℤ) - (slotOf prev node type slot).count c =
      (reported diff.added node type slot).count c - (reported diff.removed node type slot).count c
  /-- No connection is both added and removed in one slot. -/
  apart : ∀ node type slot, ∀ c ∈ reported diff.added node type slot,
    c ∉ reported diff.removed node type slot
  /-- Nothing is reported exactly if every slot holds the same connections. -/
  empty_iff : diff.added.keys = [] ∧ diff.removed.keys = [] ↔
    ∀ node type slot, (slotOf prev node type slot).Perm (slotOf next node type slot)

section Exact

variable {prev next : IConnections} {node type : String} {slot : ℕ}

theorem surplus_eq_nil_iff {connections others : List IConnection} {sourceIndex : ℕ} :
    surplus connections others sourceIndex = [] ↔
      ∀ c, connections.count c ≤ others.count c := by
  rw [← List.map_eq_nil_iff (f := ConnectionEntry.connection)]
  constructor
  · intro h c
    have := @count_surplus connections others c sourceIndex
    rw [h, List.count_nil] at this
    omega
  · intro h
    rw [List.eq_nil_iff_forall_not_mem]
    intro c hc
    have hpos := List.count_pos_iff.mpr hc
    rw [count_surplus] at hpos
    have := h c
    omega

/-- Both surpluses are empty exactly if the slots hold the same connections. -/
theorem perm_iff_surplus : (slotOf prev node type slot).Perm (slotOf next node type slot) ↔
    surplus (slotOf next node type slot) (slotOf prev node type slot) slot = [] ∧
      surplus (slotOf prev node type slot) (slotOf next node type slot) slot = [] := by
  rw [surplus_eq_nil_iff, surplus_eq_nil_iff, List.perm_iff_count]
  constructor
  · intro h
    exact ⟨fun c => (h c).ge, fun c => (h c).le⟩
  · rintro ⟨hle, hge⟩ c
    exact le_antisymm (hge c) (hle c)

/-- No node has a record exactly if none had one and there is nothing to record. -/
theorem recordEntries_keys {diff : OrderedMap String INodeConnectionsDiff}
    {entries : List ConnectionEntry} :
    (recordEntries diff node type entries).keys = [] ↔
      diff.keys = [] ∧ (entries = [] ∨ node ∈ objectPrototypeNames) := by
  unfold recordEntries
  split_ifs with h
  · simpa [List.isEmpty_iff] using fun _ => h
  · rw [keys_set]
    have hneither : ¬ (entries = [] ∨ node ∈ objectPrototypeNames) := by simpa using h
    split_ifs with hin
    · refine ⟨fun hnil => ?_, fun hnil => absurd hnil.2 hneither⟩
      rw [hnil] at hin
      exact absurd hin List.not_mem_nil
    · simp [hneither]

/-- Nothing is reported exactly if no input with a name of its own differs. -/
theorem compareConnections_keys :
    (compareConnections prev next).added.keys = [] ∧
        (compareConnections prev next).removed.keys = [] ↔
      ∀ node type slot, node ∉ objectPrototypeNames →
        (slotOf prev node type slot).Perm (slotOf next node type slot) := by
  have hfold : ∀ (inputs : List (String × String × ℕ × List IConnection × List IConnection))
      (diff : ConnectionsDiff),
      (inputs.foldl compareInput diff).added.keys = [] ∧
        (inputs.foldl compareInput diff).removed.keys = [] ↔
      (diff.added.keys = [] ∧ diff.removed.keys = []) ∧ ∀ input ∈ inputs,
        (surplus input.2.2.2.2 input.2.2.2.1 input.2.2.1 = [] ∧
          surplus input.2.2.2.1 input.2.2.2.2 input.2.2.1 = []) ∨
        input.1 ∈ objectPrototypeNames := by
    intro inputs
    induction inputs with
    | nil =>
      intro diff
      simp
    | cons input inputs ih =>
      intro diff
      rw [List.foldl_cons, ih, List.forall_mem_cons, compareInput, recordEntries_keys,
        recordEntries_keys]
      tauto
  rw [compareConnections_eq, hfold]
  constructor
  · rintro ⟨-, hall⟩ node type slot hnode
    by_cases hne : slotOf prev node type slot ≠ [] ∨ slotOf next node type slot ≠ []
    · exact perm_iff_surplus.mpr ((hall _ (mem_inputsOfBoth_of_ne hne)).resolve_right hnode)
    · push Not at hne
      rw [hne.1, hne.2]
  · intro hall
    refine ⟨⟨rfl, rfl⟩, ?_⟩
    rintro ⟨node, type, slot, before, after⟩ hin
    obtain ⟨rfl, rfl⟩ := mem_inputsOfBoth hin
    by_cases hnode : node ∈ objectPrototypeNames
    · exact .inr hnode
    · exact .inl (perm_iff_surplus.mp (hall node type slot hnode))

/-- **The difference is exact** where no slot of a node with an inherited name differs. -/
theorem exactDifference_of_perm (h : ∀ node type slot, node ∈ objectPrototypeNames →
    (slotOf prev node type slot).Perm (slotOf next node type slot)) :
    ExactDifference prev next (compareConnections prev next) := by
  have hcount : ∀ node type slot c,
      (reported (compareConnections prev next).added node type slot).count c =
        (slotOf next node type slot).count c - (slotOf prev node type slot).count c ∧
      (reported (compareConnections prev next).removed node type slot).count c =
        (slotOf prev node type slot).count c - (slotOf next node type slot).count c := by
    intro node type slot c
    rw [reported_compareConnections.1, reported_compareConnections.2]
    split_ifs with hnode
    · have := (List.perm_iff_count.mp (h node type slot hnode)) c
      rw [List.count_nil]
      omega
    · exact ⟨count_surplus slot, count_surplus slot⟩
  refine ⟨fun node type slot c => ?_, fun node type slot c hc hc' => ?_, ?_⟩
  · rw [(hcount node type slot c).1, (hcount node type slot c).2]
    omega
  · -- one of the two truncated differences is zero
    have hadded := List.count_pos_iff.mpr hc
    have hremoved := List.count_pos_iff.mpr hc'
    rw [(hcount node type slot c).1] at hadded
    rw [(hcount node type slot c).2] at hremoved
    omega
  · rw [compareConnections_keys]
    refine ⟨fun hown node type slot => ?_, fun hall node type slot _ => hall node type slot⟩
    by_cases hnode : node ∈ objectPrototypeNames
    · exact h node type slot hnode
    · exact hown node type slot hnode

/-- **The comparison is an exact multiset difference** of the slots unless a slot differs whose node
or whose type is named like a property that every object inherits. -/
theorem exactDifference_iff (prev next : IConnections) :
    (∃ diff, compareConnectionsChecked prev next = .ok diff ∧ ExactDifference prev next diff) ↔
      ∀ node type slot, node ∈ objectPrototypeNames ∨ type ∈ objectPrototypeNames →
        (slotOf prev node type slot).Perm (slotOf next node type slot) := by
  constructor
  · rintro ⟨diff, hok, hexact⟩ node type slot hname
    obtain ⟨hnot, rfl⟩ := compareConnectionsChecked_eq_ok.mp hok
    by_cases hnode : node ∈ objectPrototypeNames
    · -- nothing is reported of the node, so nothing was gained or lost
      rw [List.perm_iff_count]
      intro c
      have := hexact.count node type slot c
      rw [reported_compareConnections.1, reported_compareConnections.2, if_pos hnode, if_pos hnode,
        List.count_nil] at this
      omega
    · by_contra hperm
      rw [perm_iff_surplus, not_and_or] at hperm
      have hstored : slotOf prev node type slot ≠ [] ∨ slotOf next node type slot ≠ [] := by
        by_contra hnil
        push Not at hnil
        rw [hnil.1, hnil.2, surplus_self] at hperm
        simp at hperm
      exact hnot _ (mem_inputsOfBoth_of_ne hstored) ⟨hperm, hnode, hname.resolve_left hnode⟩
  · intro h
    refine ⟨_, compareConnectionsChecked_eq_ok.mpr ⟨?_, rfl⟩,
      exactDifference_of_perm fun node type slot hnode => h node type slot (.inl hnode)⟩
    rintro ⟨node, type, slot, before, after⟩ hin ⟨hne, -, htype⟩
    obtain ⟨rfl, rfl⟩ := mem_inputsOfBoth hin
    obtain ⟨hadded, hremoved⟩ := perm_iff_surplus.mp (h node type slot (.inr htype))
    exact hne.elim (fun hne => hne hadded) fun hne => hne hremoved

def connectedTo (node target : String) : IConnections :=
  OrderedMap.empty.set node (OrderedMap.empty.set "main" [some [⟨target, "main", 0⟩]])

/-- A new connection out of a node with the name `constructor` is not reported. -/
theorem not_exactDifference_constructor :
    compareConnectionsChecked OrderedMap.empty (connectedTo "constructor" "Set") =
      .ok ⟨OrderedMap.empty, OrderedMap.empty⟩ ∧
    ¬ ExactDifference OrderedMap.empty (connectedTo "constructor" "Set")
      ⟨OrderedMap.empty, OrderedMap.empty⟩ := by
  refine ⟨rfl, fun h => ?_⟩
  have hcount := h.count "constructor" "main" 0 ⟨"Set", "main", 0⟩
  revert hcount
  decide +kernel

end Exact

end N8n.Workflows
