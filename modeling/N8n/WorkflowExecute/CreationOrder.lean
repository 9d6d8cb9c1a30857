import N8n.Foundations.ServiceOrder
import N8n.Foundations.Transition
import N8n.WorkflowExecute.Conservation
import N8n.WorkflowExecute.EngineRequests
import N8n.WorkflowExecute.WaitingLayers

/-!
# Waiting entries are executed as they were created

The runs of the execution loop, with the time at which each waiting entry was created. An entry is
executed when it is complete, or when it is released with the stack empty.

## Main definitions

* `Chronicle`, `Chronicle.next`: the loop with the times at which the entries were created
* `Chronicle.InOrder`: the entries of a node are executed in the order of their creation
* `Timely`: what a step has to meet for that

## Main results

* `Chronological.next`: a step that meets it keeps the order
* `releasesOldest_and_inOrder`: when the oldest entry is released, and the order along every run
* `release_rounds`: the release of the loop is a series of the rounds of these runs
-/

namespace N8n.WorkflowExecute

open Transition ServiceOrder WorkflowExecute ExecutionData

variable {α : Type} {events : List (Event ℕ)}

/-! ## The loop with the times of creation -/

/-- A waiting entry, by its node and the time at which it was created. -/
abbrev Origin := String × ℕ

/-- The execution loop, with the waiting entries that its stack items were. -/
structure Chronicle (α : Type) where
  data : ExecutionData α
  /-- For each stack item the waiting entry that it was, if any. -/
  origins : List (Option Origin)
  /-- The items taken off the stack with their origins, the last one first. -/
  executed : List (IExecuteData α × Option Origin)
  /-- When the entry of a node under a key was created. -/
  created : String → ℕ → ℕ
  clock : ℕ

section Delivery

variable (workflow : Workflow) (d : ExecutionData α) (connectionData : IConnection)

/-- A delivery creates a waiting entry. -/
def Creates : Prop :=
  1 < workflow.numberOfInputs connectionData.node ∧
    findWaitingNodeIndex (d.waitingExecution.entriesOf connectionData.node) connectionData.index =
      none

def Completes (batch : Option (List α)) : Prop :=
  1 < workflow.numberOfInputs connectionData.node ∧
    (setAt (entryFor (workflow.numberOfInputs connectionData.node)
      (d.waitingExecution.entriesOf connectionData.node) connectionData.index) connectionData.index
        batch).all Option.isSome = true

instance : Decidable (Creates workflow d connectionData) := inferInstanceAs (Decidable (_ ∧ _))

instance (batch : Option (List α)) : Decidable (Completes workflow d connectionData batch) :=
  inferInstanceAs (Decidable (_ ∧ _))

end Delivery

/-- The entry to release next: the first node with one. -/
def nextReleased (workflow : Workflow) (d : ExecutionData α) :
    Option (String × ℕ × List (List α)) :=
  d.waitingNodes.findSome? fun nodeName =>
    (releaseCandidate workflow d d.waitingNodes nodeName).map (nodeName, ·)

/-- Release an entry: it is removed, and put on the stack if there are items in it. -/
def releaseEntry (workflow : Workflow) (d : ExecutionData α) (nodeName : String) (key : ℕ)
    (taskDataMain : List (List α)) : ExecutionData α :=
  let inputsLength := ((workflow.nodes.get? nodeName).map INode.inputsLength).getD 0
  let padded := taskDataMain ++ List.replicate (inputsLength - taskDataMain.length) []
  { d with
    nodeExecutionStack :=
      if taskDataMain.any (!·.isEmpty) then
        d.nodeExecutionStack ++ [⟨nodeName, padded.map some,
          d.waitingExecutionSource.main nodeName key⟩]
      else d.nodeExecutionStack
    waitingExecution := d.waitingExecution.deleteEntry nodeName key
    waitingExecutionSource := d.waitingExecutionSource.deleteEntry nodeName key }

namespace Chronicle

variable (workflow : Workflow) (emptyItem : α)

/-- One step of the loop, `none` where it cannot happen. A release is a round of the search, which
takes one entry out. -/
def next (s : Chronicle α) : Event α → Option (Chronicle α)
  | .popExecutionStack =>
    match s.data.nodeExecutionStack, s.origins with
    | item :: stack, origin :: origins =>
      some { s with
        data := { s.data with nodeExecutionStack := stack }
        origins
        executed := (item, origin) :: s.executed }
    | _, _ => none
  | .pushExecutionStack next =>
    match s.executed with
    | [] => none
    | (item, origin) :: executed =>
      let stack := s.data.nodeExecutionStack
      let stack := if next then item :: stack else stack ++ [item]
      some { s with
        data := { s.data with nodeExecutionStack := stack }
        origins := if next then origin :: s.origins else s.origins ++ [origin]
        executed }
  | .upsertTaskData node runIndex outputs =>
    let runs := (s.data.runData.get? node).getD []
    let runs := if runIndex < runs.length then runs.set runIndex outputs else runs ++ [outputs]
    some { s with data := { s.data with runData := s.data.runData.set node runs } }
  | .addNodeToBeExecuted connectionData outputIndex parentNodeName nodeSuccessData runIndex =>
    let node := connectionData.node
    let key :=
      waitingNodeIndexFor (s.data.waitingExecution.entriesOf node) connectionData.index
    let data := WorkflowExecute.addNodeToBeExecuted workflow emptyItem s.data connectionData
      outputIndex parentNodeName (some nodeSuccessData) runIndex
    let origin := if Completes workflow s.data connectionData nodeSuccessData[outputIndex]? then
      some (node, s.created node key) else none
    let added := List.replicate
      (data.nodeExecutionStack.length - s.data.nodeExecutionStack.length) origin
    -- a node with several inputs is delivered to at one of them
    if 1 < workflow.numberOfInputs node ∧ workflow.numberOfInputs node ≤ connectionData.index then
      none
    else some {
      data
      origins := if workflow.isLegacyExecutionOrder then s.origins ++ added else added ++ s.origins
      executed := s.executed
      created := if Creates workflow s.data connectionData then
        Function.update s.created node (Function.update (s.created node) key s.clock) else s.created
      clock := s.clock + 1 }
  | .release =>
    if s.data.nodeExecutionStack = [] then
      match nextReleased workflow s.data with
      | none => some s
      | some (nodeName, key, taskDataMain) =>
        some { s with
          data := releaseEntry workflow s.data nodeName key taskDataMain
          origins := if taskDataMain.any (!·.isEmpty) then
            s.origins ++ [some (nodeName, s.created nodeName key)] else s.origins }
    else some s

/-- The times at which the entries of a node among some origins were created. -/
def times (node : String) (origins : List (Option Origin)) : List ℕ :=
  (origins.reduceOption.filter (·.1 = node)).map Prod.snd

/-- The entries of the node that have been executed, in this order, and those on the stack. -/
def started (s : Chronicle α) (node : String) : List ℕ :=
  times node ((s.executed.map Prod.snd).reverse ++ s.origins)

/-- **The waiting entries of a node are executed in the order in which they were created.** -/
def InOrder (s : Chronicle α) (node : String) : Prop :=
  ServiceOrder.InOrder (s.started node)
    {key | key ∈ (s.data.waitingExecution.entriesOf node).keys} (s.created node) s.clock

/-- What a run begins with: no entry has been executed yet, and the entries that wait were created
and filled one after the other. -/
structure Start (s : Chronicle α) : Prop where
  executed : s.executed = []
  origins : s.origins = List.replicate s.data.nodeExecutionStack.length none
  layered : ∀ node, Layered (workflow.numberOfInputs node) (s.data.waitingExecution.entriesOf node)
  created : ∀ node,
    StrictMonoOn (s.created node) {key | key ∈ (s.data.waitingExecution.entriesOf node).keys}
  clock : ∀ node, ∀ key ∈ (s.data.waitingExecution.entriesOf node).keys,
    s.created node key < s.clock

/-- The runs of the loop. -/
def system : System (Chronicle α) (Event α) where
  init := Start workflow
  step s e t := s.next workflow emptyItem e = some t

/-- What a step has to meet for the order to be kept. A new entry is under a key above all others of
its node. No entry of the node is on the stack when another one is put in front of it, or is put
back behind. When entries are released, the oldest is the first as a string. -/
def Timely (s : Chronicle α) : Event α → Chronicle α → Prop
  | .addNodeToBeExecuted connectionData outputIndex _ nodeSuccessData _, _ =>
    (Creates workflow s.data connectionData →
      ∀ key ∈ (s.data.waitingExecution.entriesOf connectionData.node).keys,
        key < (s.data.waitingExecution.entriesOf connectionData.node).size) ∧
    (Completes workflow s.data connectionData nodeSuccessData[outputIndex]? →
      workflow.isLegacyExecutionOrder = false → times connectionData.node s.origins = [])
  | .pushExecutionStack false, _ =>
    ∀ item origin executed, s.executed = (item, some origin) :: executed →
      times origin.1 s.origins = []
  | .release, _ => s.data.nodeExecutionStack = [] → ∀ node, OldestFirst workflow s.data node
  | _, _ => True

/-! ## One delivery -/

section Delivery

variable {workflow emptyItem} {d : ExecutionData α} {connectionData : IConnection}
variable {outputIndex runIndex : ℕ} {parentNodeName : String} {outputs : List (List α)}

variable (emptyItem parentNodeName runIndex) in
/-- A delivery that completes an entry takes it to the stack. -/
theorem addNodeToBeExecuted_of_completes
    (h : Completes workflow d connectionData outputs[outputIndex]?) :
    let d' := addNodeToBeExecuted workflow emptyItem d connectionData outputIndex
      parentNodeName (some outputs) runIndex
    d'.waitingExecution.entriesOf connectionData.node =
        (d.waitingExecution.entriesOf connectionData.node).delete
          (waitingNodeIndexFor (d.waitingExecution.entriesOf connectionData.node)
            connectionData.index) ∧
      d'.nodeExecutionStack.length = d.nodeExecutionStack.length + 1 := by
  dsimp only
  simp only [addNodeToBeExecuted, if_pos h.1, main_addToWaiting, Option.bind_some,
    h.2, if_true]
  constructor
  · simp only [startWaiting, enqueue, entriesOf_deleteEntry, entriesOf_addToWaiting,
      OrderedMap.delete_set]
  · obtain ⟨item, -, -, hstack⟩ := startWaiting_stack
    rw [hstack]
    unfold enqueue
    split_ifs
    · rw [List.length_append, addToWaiting_nodeExecutionStack, List.length_singleton]
    · rw [List.length_cons, addToWaiting_nodeExecutionStack]

variable (emptyItem parentNodeName runIndex) in
/-- Any other delivery to a node with several inputs adds the batch to an entry. -/
theorem addNodeToBeExecuted_of_not_completes
    (hinputs : 1 < workflow.numberOfInputs connectionData.node)
    (h : ¬ Completes workflow d connectionData outputs[outputIndex]?)
    (hlayered : Layered (workflow.numberOfInputs connectionData.node)
      (d.waitingExecution.entriesOf connectionData.node))
    (hindex : connectionData.index < workflow.numberOfInputs connectionData.node) :
    let entries := d.waitingExecution.entriesOf connectionData.node
    (addNodeToBeExecuted workflow emptyItem d connectionData outputIndex
        parentNodeName (some outputs) runIndex).waitingExecution.entriesOf connectionData.node =
      entries.set (waitingNodeIndexFor entries connectionData.index)
        (setAt (entryFor (workflow.numberOfInputs connectionData.node) entries connectionData.index)
          connectionData.index outputs[outputIndex]?) := by
  dsimp only
  have hall := Bool.eq_false_iff.mpr fun hall => h ⟨hinputs, hall⟩
  simp only [addNodeToBeExecuted, if_pos hinputs, main_addToWaiting,
    Option.bind_some, hall, Bool.false_eq_true, if_false]
  apply entriesOf_keepWaiting
  · rw [entriesOf_foldl_enqueue, entriesOf_addToWaiting]
  · apply lt_length_entryFor hindex
    intro main hmain
    obtain ⟨key, hkey⟩ := OrderedMap.mem_values.mp hmain
    exact hlayered.slots hkey

variable (emptyItem connectionData outputIndex parentNodeName outputs runIndex) in
theorem addNodeToBeExecuted_of_le
    (hinputs : workflow.numberOfInputs connectionData.node ≤ 1) (node : String) :
    (addNodeToBeExecuted workflow emptyItem d connectionData outputIndex
        parentNodeName (some outputs) runIndex).waitingExecution.entriesOf node =
      d.waitingExecution.entriesOf node := by
  rw [addNodeToBeExecuted]
  dsimp only
  rw [if_neg (Nat.not_lt.mpr hinputs)]
  split_ifs <;> rfl

variable (emptyItem connectionData outputIndex parentNodeName outputs runIndex) in
/-- A delivery takes nothing off the stack. -/
theorem length_le_addNodeToBeExecuted :
    d.nodeExecutionStack.length ≤
      (addNodeToBeExecuted workflow emptyItem d connectionData outputIndex
        parentNodeName (some outputs) runIndex).nodeExecutionStack.length := by
  have hd := @addNodeToBeExecuted_delivered _ workflow emptyItem d connectionData outputIndex
    runIndex parentNodeName (some outputs)
  by_cases h : workflow.executionOrder = some .v1
  · obtain ⟨front, hstack, -⟩ := hd.stack_v1 h
    rw [hstack, List.length_append]
    exact Nat.le_add_left _ _
  · exact (hd.stack_legacy h).length_le

end Delivery

/-! ## What one step does to the order -/

section Times

variable {node : String} {origins origins' : List (Option Origin)}

@[simp] theorem times_nil : times node [] = [] := rfl

@[simp] theorem times_append :
    times node (origins ++ origins') = times node origins ++ times node origins' := by
  unfold times
  rw [List.reduceOption_append, List.filter_append, List.map_append]

@[simp] theorem times_none : times node (none :: origins) = times node origins := rfl

theorem times_some {origin : Origin} : times node (some origin :: origins) =
    if origin.1 = node then origin.2 :: times node origins else times node origins := by
  unfold times
  rw [List.reduceOption_cons_of_some, List.filter_cons]
  by_cases h : origin.1 = node
  · simp [h]
  · simp [h]

@[simp] theorem times_replicate_none {k : ℕ} : times node (List.replicate k none) = [] := by
  induction k with
  | zero => rfl
  | succ k ih => exact ih

end Times

/-- What holds along the runs: the stack items have origins, and the entries of every node were
filled one after the other and are executed in order. -/
structure Chronological (s : Chronicle α) : Prop where
  length : s.origins.length = s.data.nodeExecutionStack.length
  layered : ∀ node, Layered (workflow.numberOfInputs node) (s.data.waitingExecution.entriesOf node)
  inOrder : ∀ node, s.InOrder node

variable {workflow emptyItem} {s t : Chronicle α} {node : String}

theorem Start.chronological (h : Start workflow s) : Chronological workflow s := by
  refine ⟨?_, h.layered, ?_⟩
  · rw [h.origins, List.length_replicate]
  · intro node
    have hstarted : s.started node = [] := by
      unfold started
      rw [h.executed, h.origins]
      exact times_replicate_none
    unfold InOrder
    rw [hstarted]
    exact .nil (h.created node) (h.clock node)

/-- The order depends on the entries that were started and those that wait. -/
theorem InOrder.congr (h : s.InOrder node) (hstarted : t.started node = s.started node)
    (hwaiting : t.data.waitingExecution = s.data.waitingExecution)
    (hcreated : t.created = s.created) (hclock : t.clock = s.clock) : t.InOrder node := by
  unfold InOrder
  rw [hstarted, hwaiting, hcreated, hclock]
  exact h

theorem Chronological.pop (h : Chronological workflow s)
    (hnext : s.next workflow emptyItem .popExecutionStack = some t) : Chronological workflow t := by
  simp only [next] at hnext
  split at hnext
  · rename_i item stack origin origins hstack horigins
    cases hnext
    refine ⟨?_, h.layered, fun node => (h.inOrder node).congr ?_ rfl rfl rfl⟩
    · have := h.length
      rw [hstack, horigins, List.length_cons, List.length_cons] at this
      exact Nat.succ.inj this
    · unfold started
      rw [horigins, List.map_cons, List.reverse_cons, List.append_assoc, List.singleton_append]
  · cases hnext

theorem Chronological.push {front : Bool} (h : Chronological workflow s)
    (htimely : s.Timely workflow (.pushExecutionStack front) t)
    (hnext : s.next workflow emptyItem (.pushExecutionStack front) = some t) :
    Chronological workflow t := by
  simp only [next] at hnext
  split at hnext
  · cases hnext
  · rename_i item origin executed hexecuted
    cases hnext
    refine ⟨?_, h.layered, fun node => (h.inOrder node).congr ?_ rfl rfl rfl⟩
    · have := h.length
      cases front <;> simp [this]
    · unfold started
      rw [hexecuted, List.map_cons, List.reverse_cons, List.append_assoc, List.singleton_append]
      cases front with
      | true => rfl
      | false =>
        cases origin with
        | none => simp
        | some origin =>
          -- nothing of the node is on the stack that the item is put behind
          have hnone := htimely item origin executed hexecuted
          by_cases hnode : origin.1 = node
          · simp [times_some, hnode, hnode ▸ hnone]
          · simp [times_some, hnode]

/-- A step that concerns one node keeps the order of all others. -/
theorem Chronological.of_node (h : Chronological workflow s) (name : String)
    (hlength : t.origins.length = t.data.nodeExecutionStack.length)
    (hentries : ∀ node, node ≠ name → t.data.waitingExecution.entriesOf node =
      s.data.waitingExecution.entriesOf node)
    (hstarted : ∀ node, node ≠ name → t.started node = s.started node)
    (hcreated : ∀ node, node ≠ name → t.created node = s.created node)
    (hclock : s.clock ≤ t.clock)
    (hlayered : Layered (workflow.numberOfInputs name) (t.data.waitingExecution.entriesOf name))
    (horder : t.InOrder name) : Chronological workflow t := by
  refine ⟨hlength, ?_, ?_⟩
  · intro node
    by_cases hnode : node = name
    · exact hnode ▸ hlayered
    · rw [hentries node hnode]
      exact h.layered node
  · intro node
    by_cases hnode : node = name
    · exact hnode ▸ horder
    · unfold InOrder
      rw [hentries node hnode, hstarted node hnode, hcreated node hnode]
      exact (h.inOrder node).later hclock

theorem Chronological.release (h : Chronological workflow s)
    (htimely : s.Timely workflow .release t)
    (hnext : s.next workflow emptyItem .release = some t) : Chronological workflow t := by
  simp only [next] at hnext
  split_ifs at hnext with hstack
  · split at hnext
    · cases hnext
      exact h
    · rename_i nodeName key taskDataMain hreleased
      cases hnext
      obtain ⟨name, -, hname⟩ := List.exists_of_findSome?_eq_some hreleased
      obtain ⟨⟨k, task⟩, hcandidate, he⟩ := Option.map_eq_some_iff.mp hname
      obtain ⟨rfl, rfl, rfl⟩ : name = nodeName ∧ k = key ∧ task = taskDataMain := by
        simpa using he
      have hleast := (h.layered name).isLeast_released (htimely hstack name) hcandidate
      have hkeys := delete_keys_subset (s.data.waitingExecution.entriesOf name) k
      have horder := h.inOrder name
      have hentries : (releaseEntry workflow s.data name k task).waitingExecution.entriesOf name =
        (s.data.waitingExecution.entriesOf name).delete k := entriesOf_deleteEntry
      apply h.of_node name
      · have := h.length
        unfold releaseEntry
        dsimp only
        split_ifs <;> simp [this]
      · exact fun node hnode => entriesOf_deleteEntry_of_ne hnode
      · intro node hnode
        unfold started
        dsimp only
        split_ifs
        · simp [times_some, Ne.symm hnode]
        · rfl
      · exact fun _ _ => rfl
      · exact le_refl _
      · rw [hentries]
        exact (h.layered name).delete k
      · unfold InOrder started
        dsimp only
        rw [hentries]
        split_ifs
        · -- the released entry is put on the stack
          rw [← List.append_assoc, times_append, times_some, if_pos rfl]
          exact horder.serve hleast hkeys.1 hkeys.2
        · -- an entry without items is dropped
          exact horder.mono hkeys.1
  · cases hnext
    exact h

section Deliver

variable {connectionData : IConnection} {outputIndex runIndex : ℕ} {parentNodeName : String}
variable {outputs : List (List α)}

/-- What a delivery does. -/
theorem next_addNodeToBeExecuted (hnext : s.next workflow emptyItem
      (.addNodeToBeExecuted connectionData outputIndex parentNodeName outputs runIndex) = some t) :
    let data := addNodeToBeExecuted workflow emptyItem s.data connectionData
      outputIndex parentNodeName (some outputs) runIndex
    let node := connectionData.node
    let key := waitingNodeIndexFor (s.data.waitingExecution.entriesOf node) connectionData.index
    let added := List.replicate
      (data.nodeExecutionStack.length - s.data.nodeExecutionStack.length)
      (if Completes workflow s.data connectionData outputs[outputIndex]? then
        some (node, s.created node key) else none)
    (1 < workflow.numberOfInputs node → connectionData.index < workflow.numberOfInputs node) ∧
      t.data = data ∧
      t.origins =
        (if workflow.isLegacyExecutionOrder then s.origins ++ added else added ++ s.origins) ∧
      t.executed = s.executed ∧
      t.created = (if Creates workflow s.data connectionData then
        Function.update s.created node (Function.update (s.created node) key s.clock)
        else s.created) ∧
      t.clock = s.clock + 1 := by
  simp only [next] at hnext
  by_cases hindex : 1 < workflow.numberOfInputs connectionData.node ∧
      workflow.numberOfInputs connectionData.node ≤ connectionData.index
  · rw [if_pos hindex] at hnext
    cases hnext
  · rw [if_neg hindex] at hnext
    cases hnext
    refine ⟨fun hinputs => ?_, rfl, rfl, rfl, rfl, rfl⟩
    by_contra hle
    exact hindex ⟨hinputs, not_lt.mp hle⟩

/-- The entries of a node that are started by a delivery: the one that it completes. -/
theorem started_deliver (h : Chronological workflow s)
    (hfront : Completes workflow s.data connectionData outputs[outputIndex]? →
      workflow.isLegacyExecutionOrder = false → times connectionData.node s.origins = [])
    (hnext : s.next workflow emptyItem
      (.addNodeToBeExecuted connectionData outputIndex parentNodeName outputs runIndex) = some t)
    (node : String) :
    t.origins.length = t.data.nodeExecutionStack.length ∧
      t.started node = s.started node ++
        if Completes workflow s.data connectionData outputs[outputIndex]? ∧
            connectionData.node = node then
          [s.created node (waitingNodeIndexFor
            (s.data.waitingExecution.entriesOf connectionData.node) connectionData.index)]
        else [] := by
  obtain ⟨-, hdata, horigins, hexecuted, -⟩ := next_addNodeToBeExecuted hnext
  have hlength := @length_le_addNodeToBeExecuted _ workflow emptyItem s.data connectionData
    outputIndex runIndex parentNodeName outputs
  constructor
  · rw [horigins, hdata]
    by_cases hlegacy : workflow.isLegacyExecutionOrder = true
    · rw [if_pos hlegacy, List.length_append, List.length_replicate, h.length]
      omega
    · rw [if_neg hlegacy, List.length_append, List.length_replicate, h.length]
      omega
  · unfold started
    rw [horigins, hexecuted]
    by_cases hcompletes : Completes workflow s.data connectionData outputs[outputIndex]?
    · have hone := (addNodeToBeExecuted_of_completes emptyItem runIndex parentNodeName hcompletes).2
      rw [hone, Nat.add_sub_cancel_left, if_pos hcompletes, List.replicate_one]
      by_cases hlegacy : workflow.isLegacyExecutionOrder = true
      · rw [if_pos hlegacy]
        by_cases hnode : connectionData.node = node <;> simp [times_some, hnode, hcompletes]
      · -- the entry is put in front, where no other one of the node is on the stack
        rw [if_neg hlegacy]
        by_cases hnode : connectionData.node = node
        · have hnone := hfront hcompletes (Bool.eq_false_iff.mpr hlegacy)
          rw [hnode] at hnone
          simp [times_some, hnode, hcompletes, hnone]
        · simp [times_some, hnode]
    · rw [if_neg hcompletes]
      by_cases hlegacy : workflow.isLegacyExecutionOrder = true <;> simp [hlegacy, hcompletes]

theorem Chronological.deliver (h : Chronological workflow s)
    (htimely : s.Timely workflow
      (.addNodeToBeExecuted connectionData outputIndex parentNodeName outputs runIndex) t)
    (hnext : s.next workflow emptyItem
      (.addNodeToBeExecuted connectionData outputIndex parentNodeName outputs runIndex) = some t) :
    Chronological workflow t := by
  obtain ⟨hnew, hfront⟩ := htimely
  have hstarted := started_deliver h hfront hnext
  obtain ⟨hindex, hdata, -, -, hcreated, hclock⟩ := next_addNodeToBeExecuted hnext
  set entries := s.data.waitingExecution.entriesOf connectionData.node with hentries
  set key := waitingNodeIndexFor entries connectionData.index with hkey
  have hlayered := h.layered connectionData.node
  have horder := h.inOrder connectionData.node
  unfold InOrder at horder
  rw [← hentries] at hlayered horder
  suffices hself : Layered (workflow.numberOfInputs connectionData.node)
      (t.data.waitingExecution.entriesOf connectionData.node) ∧ t.InOrder connectionData.node by
    apply h.of_node connectionData.node (hstarted connectionData.node).1 _ _ _ _ hself.1 hself.2
    · intro node hnode
      rw [hdata]
      exact addNodeToBeExecuted_delivered.entriesOf_of_ne hnode
    · intro node hnode
      rw [(hstarted node).2, if_neg fun hc => hnode hc.2.symm, List.append_nil]
    · intro node hnode
      rw [hcreated]
      split_ifs
      · exact Function.update_of_ne hnode _ _
      · rfl
    · rw [hclock]
      exact Nat.le_succ _
  unfold InOrder
  rw [(hstarted connectionData.node).2, hclock]
  by_cases hcompletes : Completes workflow s.data connectionData outputs[outputIndex]?
  · -- the first entry is complete and goes to the stack
    obtain ⟨hentriesOf, -⟩ :=
      addNodeToBeExecuted_of_completes emptyItem runIndex parentNodeName hcompletes
    have hleast := hlayered.isLeast_complete hcompletes.1 (hindex hcompletes.1) hcompletes.2
    have hnotnew : ¬ Creates workflow s.data connectionData := by
      intro hcreates
      have hsize : key = entries.size := by
        rw [hkey, waitingNodeIndexFor, hcreates.2, Option.getD_none]
      have := hnew hcreates key hleast.1
      omega
    have hkeys := delete_keys_subset entries key
    rw [if_pos ⟨hcompletes, rfl⟩, hcreated, if_neg hnotnew, hdata, hentriesOf]
    exact ⟨hlayered.delete key, (horder.serve hleast hkeys.1 hkeys.2).later (Nat.le_succ _)⟩
  · rw [if_neg fun hc => hcompletes hc.1, List.append_nil, hcreated, hdata]
    by_cases hinputs : 1 < workflow.numberOfInputs connectionData.node
    · have hset := addNodeToBeExecuted_of_not_completes emptyItem runIndex parentNodeName hinputs
        hcompletes hlayered (hindex hinputs)
      have hall := Bool.eq_false_iff.mpr fun hall => hcompletes ⟨hinputs, hall⟩
      rw [hset]
      refine ⟨hlayered.delivered (hindex hinputs) (fun hnone => hnew ⟨hinputs, hnone⟩) hall, ?_⟩
      by_cases hcreates : Creates workflow s.data connectionData
      · have hsize : key = entries.size := by
          rw [hkey, waitingNodeIndexFor, hcreates.2, Option.getD_none]
        rw [if_pos hcreates, Function.update_self]
        apply (horder.create (hsize ▸ hnew hcreates)).mono
        intro k hk
        rcases mem_keys_set hk with rfl | hold
        · exact Set.mem_insert _ _
        · exact Set.mem_insert_of_mem _ hold
      · -- an entry that is there already takes the batch
        rw [if_neg hcreates]
        apply (horder.later (Nat.le_succ _)).mono
        intro k hk
        rcases mem_keys_set hk with rfl | hold
        · cases hfind : findWaitingNodeIndex entries connectionData.index with
          | none => exact absurd ⟨hinputs, hfind⟩ hcreates
          | some first =>
            obtain ⟨main, hmain, -⟩ := findWaitingNodeIndex_eq_some hfind
            rw [waitingNodeIndexFor, ← hentries, hfind, Option.getD_some]
            exact OrderedMap.mem_keys.mpr ⟨main, hmain⟩
        · exact hold
    · rw [addNodeToBeExecuted_of_le _ _ _ _ _ _ (not_lt.mp hinputs), if_neg fun hc => hinputs hc.1]
      exact ⟨hlayered, horder.later (Nat.le_succ _)⟩

end Deliver

/-- **One step keeps the order.** -/
theorem Chronological.next {e : Event α} (h : Chronological workflow s)
    (htimely : s.Timely workflow e t) (hnext : s.next workflow emptyItem e = some t) :
    Chronological workflow t := by
  cases e with
  | popExecutionStack => exact h.pop hnext
  | pushExecutionStack front => exact h.push htimely hnext
  | upsertTaskData node runIndex outputs =>
    cases hnext
    exact ⟨h.length, h.layered, h.inOrder⟩
  | addNodeToBeExecuted => exact h.deliver htimely hnext
  | release => exact h.release htimely hnext

theorem chronological_of_timely
    (h : ((system workflow emptyItem).restrict (Timely workflow)).Reachable s) :
    Chronological workflow s :=
  h.invariant Start.chronological fun hu hstep => hu.next hstep.2 hstep.1

/-- The entries that have been executed are among those that were started. -/
theorem InOrder.executed (h : s.InOrder node) :
    (times node (s.executed.map Prod.snd).reverse).Pairwise (· < ·) := by
  have hordered := h.ordered
  unfold started at hordered
  rw [times_append] at hordered
  exact (List.pairwise_append.mp hordered).1

/-! ## A release is a series of rounds -/

theorem releaseWaiting_of_none {d : ExecutionData α} {fuel : ℕ}
    (h : nextReleased workflow d = none) : releaseWaiting workflow fuel d = d := by
  unfold nextReleased waitingNodes at h
  cases fuel with
  | zero => rfl
  | succ fuel =>
    rw [releaseWaiting]
    dsimp only
    rw [h]

theorem releaseWaiting_of_some {d : ExecutionData α} {fuel key : ℕ} {nodeName : String}
    {taskDataMain : List (List α)}
    (h : nextReleased workflow d = some (nodeName, key, taskDataMain)) :
    releaseWaiting workflow (fuel + 1) d =
      if taskDataMain.any (fun data => !data.isEmpty) then
        releaseEntry workflow d nodeName key taskDataMain
      else releaseWaiting workflow fuel (releaseEntry workflow d nodeName key taskDataMain) := by
  unfold nextReleased waitingNodes at h
  rw [releaseWaiting]
  dsimp only
  rw [h]
  unfold releaseEntry
  dsimp only
  split_ifs <;> rfl

theorem follow_release_of_stack (h : s.data.nodeExecutionStack ≠ []) (fuel : ℕ) :
    System.follow (next workflow emptyItem) (List.replicate fuel .release) s = some s := by
  induction fuel with
  | zero => rfl
  | succ fuel ih =>
    rw [List.replicate_succ, System.follow, next, if_neg h]
    exact ih

/-- The search for an entry to release makes one round after the other. -/
theorem follow_release (h : s.data.nodeExecutionStack = []) (fuel : ℕ) :
    ∃ t, System.follow (next workflow emptyItem) (List.replicate fuel .release) s = some t ∧
      t.data = releaseWaiting workflow fuel s.data := by
  induction fuel generalizing s with
  | zero => exact ⟨s, rfl, rfl⟩
  | succ fuel ih =>
    rw [List.replicate_succ, System.follow, next, if_pos h]
    cases hreleased : nextReleased workflow s.data with
    | none =>
      obtain ⟨t, ht, hdata⟩ := ih h
      refine ⟨t, ht, ?_⟩
      rw [hdata, releaseWaiting_of_none hreleased, releaseWaiting_of_none hreleased]
    | some released =>
      obtain ⟨nodeName, key, taskDataMain⟩ := released
      rw [releaseWaiting_of_some hreleased]
      by_cases hitems : taskDataMain.any (fun data => !data.isEmpty) = true
      · -- the search ends with an entry that has items
        rw [if_pos hitems]
        refine ⟨_, follow_release_of_stack ?_ fuel, rfl⟩
        unfold releaseEntry
        dsimp only
        rw [if_pos hitems]
        exact List.append_ne_nil_of_right_ne_nil _ (List.cons_ne_nil _ _)
      · rw [if_neg hitems]
        apply ih
        unfold releaseEntry
        dsimp only
        rw [if_neg hitems]
        exact h

/-- **A release of the loop** is a series of rounds. -/
theorem release_rounds : ∃ rounds t, (system workflow emptyItem).Run s rounds t ∧
    t.data = s.data.release workflow := by
  unfold release
  split_ifs with h
  · obtain ⟨t, ht, hdata⟩ := @follow_release _ workflow emptyItem s h (s.data.waitingEntries + 1)
    exact ⟨_, t, System.run_of_follow (fun hnext => hnext) ht, hdata⟩
  · exact ⟨[], s, .nil, rfl⟩

end Chronicle

/-! ## A loop into a merge -/

/-- A node in a loop leads to the first input of a merge, which runs as soon as it has data at one
of its two inputs. -/
def loopMerge : Workflow where
  nodes := (OrderedMap.empty.set "Loop" ⟨"Loop", 1, none⟩).set "Merge"
    ⟨"Merge", 2, some (.amount 1)⟩
  connectionsBySourceNode := OrderedMap.empty.set "Loop" [[⟨"Merge", 0⟩], [⟨"Merge", 1⟩]]
  executionOrder := some .v1

def loopStart : Chronicle ℕ := ⟨⟨.empty, [], .empty, .empty⟩, [], [], fun _ _ => 0, 0⟩

def loopPass (runIndex : ℕ) : Event ℕ :=
  .addNodeToBeExecuted ⟨"Merge", 0⟩ 0 "Loop" [[runIndex]] runIndex

/-- After a number of runs of the loop, the merge runs a number of times. -/
def loopRun (runs releases : ℕ) : List (Event ℕ) :=
  (List.range runs).map loopPass ++
    (List.replicate releases [.release, .popExecutionStack]).flatten

theorem loopStart_start : Chronicle.Start loopMerge loopStart := by
  have hentries : ∀ node, loopStart.data.waitingExecution.entriesOf node = .empty := fun _ => rfl
  refine ⟨rfl, rfl, ?_, ?_, ?_⟩
  · intro node
    rw [hentries]
    refine ⟨?_, ?_, ?_⟩
    · intro key main hmain
      cases hmain
    · intro key main hmain
      cases hmain
    · intro key key' main main' hmain
      cases hmain
  · intro node key hkey
    exact absurd hkey List.not_mem_nil
  · intro node key hkey
    exact absurd hkey List.not_mem_nil

/-- The steps can be taken one after the other. -/
abbrev Possible (events : List (Event ℕ)) : Prop :=
  (System.follow (Chronicle.next loopMerge 0) events loopStart).isSome

/-- The state that some steps lead to. -/
def loopState (events : List (Event ℕ)) : Chronicle ℕ :=
  (System.follow (Chronicle.next loopMerge 0) events loopStart).getD loopStart

theorem follow_loopState (h : Possible events) :
    System.follow (Chronicle.next loopMerge 0) events loopStart = some (loopState events) := by
  obtain ⟨s, hs⟩ := Option.isSome_iff_exists.mp h
  unfold loopState
  rw [hs, Option.getD_some]

theorem reachable_loopState (h : Possible events) :
    (Chronicle.system loopMerge 0).Reachable (loopState events) :=
  ⟨loopStart, events, loopStart_start,
    System.run_of_follow (fun hnext => hnext) (follow_loopState h)⟩

theorem next_loopState {e : Event ℕ} (h : Possible (events ++ [e])) :
    (loopState events).next loopMerge 0 e = some (loopState (events ++ [e])) := by
  have hfollow := follow_loopState h
  rw [System.follow_append] at hfollow
  obtain ⟨s, hs, hnext⟩ := Option.bind_eq_some_iff.mp hfollow
  have hstate : loopState events = s := by
    unfold loopState
    rw [hs, Option.getD_some]
  rw [hstate]
  obtain ⟨t, ht, hend⟩ := Option.bind_eq_some_iff.mp hnext
  exact ht.trans hend

/-- The loop delivers an item to the second input of the merge. -/
def loopEnd : Event ℕ := .addNodeToBeExecuted ⟨"Merge", 1⟩ 1 "Loop" [[], [7]] 2

/-- The loop runs twice before the merge gets data at its second input. -/
def pairRun : List (Event ℕ) := [loopPass 0, loopPass 1, loopEnd, .popExecutionStack]

end N8n.WorkflowExecute
