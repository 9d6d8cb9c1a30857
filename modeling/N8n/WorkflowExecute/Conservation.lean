import N8n.WorkflowExecute.WaitingExecution

/-!
# No batch of items is lost

The execution loop as a system: it takes nodes off the stack and puts them back, records what they
return, delivers their batches one by one and releases waiting nodes. A batch that was delivered to
an input is at that input of one stack item or of one waiting entry, unless a later delivery wrote
a new waiting entry over the entry that held it.

## Main definitions

* `State`, `Event`, `State.next`: the system, with what was delivered and started so far
* `State.Kept`: every batch is where it was delivered, exactly once
* `overwritten`: what a delivery writes a new entry over
* `Spared`: no delivery of a run writes over a batch

## Main results

* `held_addNodeToBeExecuted`: a delivery keeps all batches but the overwritten ones
* `held_release`: a release keeps all batches
* `kept_iff_spared`: nothing is lost in a run if and only if nothing is written over
-/

namespace N8n.WorkflowExecute

open ExecutionData

variable {α : Type} [DecidableEq α]

/-! ## Where a batch is -/

section Holds

variable (node : String) (input : ℕ) (batch : List α)

def holds (main : InputData α) : ℕ := if at? main input = some batch then 1 else 0

def IExecuteData.holds (item : IExecuteData α) : ℕ :=
  if item.node = node then WorkflowExecute.holds input batch item.data else 0

def onStack (items : List (IExecuteData α)) : ℕ := (items.map (·.holds node input batch)).sum

def inWaiting (waiting : IWaiting (List α)) : ℕ :=
  (waiting.entriesOf node).total fun _ main => holds input batch main

def ExecutionData.held (d : ExecutionData α) : ℕ :=
  onStack node input batch d.nodeExecutionStack + inWaiting node input batch d.waitingExecution

end Holds

section Measures

variable {node n : String} {input i key : ℕ} {batch : List α} {b : Option (List α)}
  {main : InputData α} {waiting : IWaiting (List α)}

@[simp] theorem holds_nil : holds i batch [] = 0 := by simp [holds]

@[simp] theorem holds_replicate {k : ℕ} : holds i batch (List.replicate k none) = 0 := by
  simp [holds]

/-- What an assignment to a free input adds. -/
theorem holds_setAt_of_free (hfree : at? main input = none) :
    holds i batch (setAt main input b) =
      holds i batch main + if i = input ∧ b = some batch then 1 else 0 := by
  unfold holds
  rw [at?_setAt]
  by_cases h : i = input
  · subst h
    simp [hfree]
  · simp [h]

/-- Assigning what is there changes nothing. -/
theorem holds_setAt_of_eq (heq : at? main input = b) :
    holds i batch (setAt main input b) = holds i batch main := by
  unfold holds
  rw [at?_setAt]
  split_ifs with h <;> simp_all

omit [DecidableEq α] in
theorem main_setMain : (waiting.setMain node key main).main n i =
    if n = node ∧ i = key then main else waiting.main n i := by
  unfold IWaiting.main IWaiting.setMain IWaiting.entriesOf
  rw [OrderedMap.get?_set]
  by_cases hn : n = node
  · subst hn
    by_cases hi : i = key
    · simp [hi]
    · simp [hi, OrderedMap.get?_set]
  · simp [hn]

/-- The share of one entry. -/
theorem elim_holds (entries : OrderedMap ℕ (InputData α)) :
    (entries.get? key).elim 0 (fun main => holds input batch main) =
      holds input batch ((entries.get? key).getD []) := by
  cases entries.get? key <;> simp

theorem inWaiting_setMain : inWaiting n i batch (waiting.setMain node key main) +
      (if n = node then holds i batch (waiting.main node key) else 0) =
    inWaiting n i batch waiting + if n = node then holds i batch main else 0 := by
  unfold inWaiting IWaiting.setMain IWaiting.main
  by_cases hn : n = node
  · subst hn
    have htotal := @OrderedMap.total_set _ _ _ (waiting.entriesOf n) key main _ _
      (fun _ main => holds i batch main)
    rw [elim_holds] at htotal
    simpa [IWaiting.entriesOf] using htotal
  · simp [hn, IWaiting.entriesOf, OrderedMap.get?_set]

theorem inWaiting_deleteEntry : inWaiting n i batch (waiting.deleteEntry node key) +
      (if n = node then holds i batch (waiting.main node key) else 0) =
    inWaiting n i batch waiting := by
  by_cases hn : n = node
  · subst hn
    have htotal := @OrderedMap.total_delete _ _ _ (waiting.entriesOf n) key _ _
      (fun _ main => holds i batch main)
    rw [elim_holds] at htotal
    suffices h : inWaiting n i batch (waiting.deleteEntry n key) =
        ((waiting.entriesOf n).delete key).total fun _ main => holds i batch main by
      rw [if_pos rfl, h]
      exact htotal
    unfold inWaiting IWaiting.deleteEntry
    simp only
    split_ifs with hempty
    · -- the last entry of a node goes with the node
      rw [OrderedMap.total_of_size_eq_zero _ hempty]
      simp [IWaiting.entriesOf]
    · simp [IWaiting.entriesOf]
  · unfold inWaiting IWaiting.deleteEntry IWaiting.entriesOf
    simp only [if_neg hn, add_zero]
    split_ifs <;> simp [hn, OrderedMap.get?_set, OrderedMap.get?_delete]

end Measures

/-! ## Deliveries -/

section Deliver

variable (workflow : Workflow) (emptyItem : α) (d : ExecutionData α)

/-- What a delivery writes a new entry over: when every waiting entry of the node has data for the
input, the new entry is stored under their number, and an entry may be there. -/
def overwritten (connectionData : IConnection) : InputData α :=
  let entries := d.waitingExecution.entriesOf connectionData.node
  if 1 < workflow.numberOfInputs connectionData.node ∧
      (findWaitingNodeIndex entries connectionData.index).isNone then
    d.waitingExecution.main connectionData.node entries.size
  else []

variable (n : String) (i : ℕ) (batch : List α)

def lost (connectionData : IConnection) : ℕ :=
  if n = connectionData.node then holds i batch (overwritten workflow d connectionData) else 0

def arrives (connectionData : IConnection) (b : Option (List α)) : ℕ :=
  if n = connectionData.node ∧ i = connectionData.index ∧ b = some batch then 1 else 0

variable {workflow d n i batch} {node : String} {key : ℕ} {connectionData : IConnection}
  {b : Option (List α)} {source : Option ISourceData}

/-- **A batch is added to the waiting entries**, and what a new entry is written over is lost. -/
theorem inWaiting_addToWaiting (hinputs : 1 < workflow.numberOfInputs connectionData.node) :
    inWaiting n i batch (addToWaiting workflow d connectionData b source).waitingExecution +
        lost workflow d n i batch connectionData =
      inWaiting n i batch d.waitingExecution + arrives n i batch connectionData b := by
  rw [addToWaiting_waitingExecution]
  unfold lost overwritten arrives waitingNodeIndexFor
  set waiting := d.waitingExecution with hw
  set opened := if (waiting.get? connectionData.node).isSome then waiting
    else waiting.set connectionData.node .empty with ho
  have hentries : ∀ n, opened.entriesOf n = waiting.entriesOf n :=
    fun n => entriesOf_open waiting connectionData.node
  have hopened : inWaiting n i batch opened = inWaiting n i batch waiting := by
    simp only [inWaiting, hentries]
  have hmain : ∀ key, opened.main connectionData.node key =
      waiting.main connectionData.node key := fun key => by simp only [IWaiting.main, hentries]
  simp only [hinputs, true_and]
  cases hfind : findWaitingNodeIndex (waiting.entriesOf connectionData.node)
      connectionData.index with
  | some key =>
    -- an entry without data for the input takes the batch
    have hfree : at? (opened.main connectionData.node key) connectionData.index = none := by
      rw [hmain]
      exact findWaitingNodeIndex_free hfind
    have hset := @inWaiting_setMain _ _ connectionData.node n i key batch
      (setAt (opened.main connectionData.node key) connectionData.index b) opened
    rw [holds_setAt_of_free hfree, hopened] at hset
    rcases eq_or_ne n connectionData.node with rfl | hn
    · simp only [if_true, true_and, Option.isSome_some, Option.getD_some,
        Option.isNone_some, Bool.false_eq_true, if_false, holds_nil, add_zero] at hset ⊢
      omega
    · simpa [hn] using hset
  | none =>
    -- a new entry takes it
    set key := (waiting.entriesOf connectionData.node).size with hkey
    have hprep := @inWaiting_setMain _ _ connectionData.node n i key batch
      (List.replicate (workflow.numberOfInputs connectionData.node) none) opened
    set prepared := opened.setMain connectionData.node key
      (List.replicate (workflow.numberOfInputs connectionData.node) none) with hp
    have hfresh : prepared.main connectionData.node key =
        List.replicate (workflow.numberOfInputs connectionData.node) none := by
      rw [hp, main_setMain, if_pos ⟨rfl, rfl⟩]
    have hset := @inWaiting_setMain _ _ connectionData.node n i key batch
      (setAt (prepared.main connectionData.node key) connectionData.index b) prepared
    rw [holds_setAt_of_free (by rw [hfresh]; exact at?_replicate), hfresh, holds_replicate] at hset
    rw [hopened, hmain, holds_replicate] at hprep
    simp only [Option.isSome_none, Bool.false_eq_true, if_false, Option.getD_none,
      Option.isNone_none, if_true, ← hp, hfresh]
    rcases eq_or_ne n connectionData.node with rfl | hn
    · simp only [if_true, true_and] at hset hprep ⊢
      omega
    · simp only [hn, if_false, false_and] at hset hprep ⊢
      omega

theorem held_enqueue (item : IExecuteData α) :
    (d.enqueue workflow item).held n i batch = d.held n i batch + item.holds n i batch := by
  unfold held enqueue onStack
  split_ifs <;> simp <;> omega

theorem held_foldl_enqueue (items : List (IExecuteData α)) :
    (items.foldl (·.enqueue workflow ·) d).held n i batch =
        d.held n i batch + onStack n i batch items ∧
      (items.foldl (·.enqueue workflow ·) d).waitingExecution = d.waitingExecution := by
  induction items generalizing d with
  | nil => exact ⟨rfl, rfl⟩
  | cons item items ih =>
    obtain ⟨hheld, hwaiting⟩ := @ih (d.enqueue workflow item)
    refine ⟨?_, hwaiting⟩
    rw [List.foldl_cons, hheld, held_enqueue]
    simp [onStack, add_assoc]

/-- An entry with all its data goes from the waiting entries to the stack. -/
theorem held_startWaiting :
    (startWaiting workflow d node key).held n i batch = d.held n i batch := by
  have hstack := @held_enqueue _ _ workflow d n i batch
    ⟨node, d.waitingExecution.main node key, d.waitingExecutionSource.main node key⟩
  have hdelete := @inWaiting_deleteEntry _ _ node n i key batch d.waitingExecution
  simp only [IExecuteData.holds, held, eq_comm (a := node)] at hstack
  have hsame : (d.enqueue workflow ⟨node, d.waitingExecution.main node key,
    d.waitingExecutionSource.main node key⟩).waitingExecution = d.waitingExecution := rfl
  rw [hsame] at hstack
  simp only [startWaiting, held, hsame]
  omega

/-- An entry that misses data is written once more as it is. -/
theorem held_keepWaiting
    (heq : at? (d.waitingExecution.main connectionData.node key) connectionData.index = b) :
    (keepWaiting workflow d connectionData key b).held n i batch = d.held n i batch := by
  have hprep := @inWaiting_setMain _ _ connectionData.node n i key batch
    (List.replicate (workflow.numberOfInputs connectionData.node) none) d.waitingExecution
  have hset := @inWaiting_setMain _ _ connectionData.node n i key batch
    (setAt (d.waitingExecution.main connectionData.node key) connectionData.index b)
    (d.waitingExecution.setMain connectionData.node key
      (List.replicate (workflow.numberOfInputs connectionData.node) none))
  simp only [main_setMain, and_self, if_true, holds_replicate, holds_setAt_of_eq heq,
    ite_self] at hset
  simp only [holds_replicate, ite_self] at hprep
  have hkeep : (keepWaiting workflow d connectionData key b).held n i batch =
      onStack n i batch d.nodeExecutionStack +
        inWaiting n i batch ((d.waitingExecution.setMain connectionData.node key
          (List.replicate (workflow.numberOfInputs connectionData.node) none)).setMain
          connectionData.node key
          (setAt (d.waitingExecution.main connectionData.node key) connectionData.index b)) := rfl
  rw [hkeep, held]
  omega

/-- **A delivery keeps all batches** but those of an entry it writes over: the new batch arrives,
and the stack items it starts are added. -/
theorem held_addNodeToBeExecuted (hnode : (workflow.nodes.get? connectionData.node).isSome)
    (outputIndex : ℕ) (parentNodeName : String) (nodeSuccessData : Option (List (List α)))
    (runIndex : ℕ) :
    (addNodeToBeExecuted workflow emptyItem d connectionData outputIndex parentNodeName
          nodeSuccessData runIndex).held n i batch + lost workflow d n i batch connectionData =
      d.held n i batch + arrives n i batch connectionData (nodeSuccessData.bind (·[outputIndex]?)) +
        onStack n i batch (startedBy workflow emptyItem d connectionData outputIndex parentNodeName
          nodeSuccessData runIndex) := by
  unfold addNodeToBeExecuted
  dsimp only
  set b := nodeSuccessData.bind (·[outputIndex]?) with hb
  set source := nodeSuccessData.map fun _ => ISourceData.mk parentNodeName outputIndex runIndex
  set key := waitingNodeIndexFor (d.waitingExecution.entriesOf connectionData.node)
    connectionData.index
  by_cases hinputs : 1 < workflow.numberOfInputs connectionData.node
  · rw [if_pos hinputs]
    have hadd := @inWaiting_addToWaiting _ _ workflow d n i batch connectionData b source hinputs
    set added := addToWaiting workflow d connectionData b source with hadded
    have hstack : added.nodeExecutionStack = d.nodeExecutionStack :=
      addToWaiting_nodeExecutionStack b source
    have hheld : added.held n i batch + lost workflow d n i batch connectionData =
        d.held n i batch + arrives n i batch connectionData b := by
      unfold held
      rw [hstack]
      omega
    split_ifs with hall
    · have hnone : startedBy workflow emptyItem d connectionData outputIndex parentNodeName
          nodeSuccessData runIndex = [] := by
        unfold startedBy
        exact if_neg fun h => by simp [← hb, hall, key, source, added] at h
      rw [held_startWaiting, hheld, hnone]
      rfl
    · set started := startedBy workflow emptyItem d connectionData outputIndex parentNodeName
        nodeSuccessData runIndex
      obtain ⟨hstarted, hsame⟩ := @held_foldl_enqueue _ _ workflow added n i batch started
      rw [held_keepWaiting, hstarted]
      · omega
      · rw [hsame, hadded, addToWaiting_waitingExecution, main_setMain, if_pos ⟨rfl, rfl⟩, at?_setAt,
          if_pos rfl]
  · rw [if_neg hinputs, if_pos hnode, held_enqueue]
    have hlost : lost workflow d n i batch connectionData = 0 := by
      unfold lost overwritten
      simp [hinputs]
    have hnone : startedBy workflow emptyItem d connectionData outputIndex parentNodeName
        nodeSuccessData runIndex = [] := by
      unfold startedBy
      exact if_neg fun h => hinputs h.1
    rw [hlost, hnone]
    unfold IExecuteData.holds arrives
    rw [holds_setAt_of_free at?_nil]
    simp only [holds_nil, zero_add, eq_comm (a := connectionData.node)]
    split_ifs <;> simp_all [onStack]

end Deliver

/-! ## Releases -/

section Release

variable {workflow : Workflow} {d : ExecutionData α} {n node : String} {i key : ℕ}
  {batch : List α} {main : InputData α}

/-- A released entry holds the items of the waiting one. -/
theorem holds_released (hb : batch ≠ []) (k : ℕ) :
    holds i batch (((main.map fun data : Option (List α) => data.getD []) ++ List.replicate k []).map some) =
      holds i batch main := by
  suffices h : at? (((main.map fun data : Option (List α) => data.getD []) ++ List.replicate k []).map some) i =
      some batch ↔ at? main i = some batch by
    simp only [holds, h]
  unfold at?
  rcases lt_or_ge i main.length with hi | hi
  · rw [List.getElem?_map, List.getElem?_append_left (by simpa using hi), List.getElem?_map]
    cases hmain : main[i]? with
    | none => simp
    | some data =>
      cases data with
      | none => simpa using hb.symm
      | some items => simp
  · rw [List.getElem?_map, List.getElem?_append_right (by simpa using hi),
      List.getElem?_eq_none hi, List.getElem?_replicate]
    split_ifs
    · simpa using hb.symm
    · simp

theorem holds_eq_zero_of_no_items (hb : batch ≠ [])
    (hempty : (main.map fun data : Option (List α) => data.getD []).any (fun data => !data.isEmpty) = false) :
    holds i batch main = 0 := by
  unfold holds at?
  rw [if_neg]
  intro h
  have hmem := List.mem_of_getElem? (Option.join_eq_some_iff.mp h)
  have := List.any_eq_false.mp hempty batch (List.mem_map.mpr ⟨_, hmem, rfl⟩)
  exact hb (by simpa using this)

/-- **A release keeps all batches.** -/
theorem held_releaseWaiting (hb : batch ≠ []) (fuel : ℕ) :
    (releaseWaiting workflow fuel d).held n i batch = d.held n i batch := by
  induction fuel generalizing d with
  | zero => rfl
  | succ fuel ih =>
    unfold releaseWaiting
    dsimp only
    split
    · rfl
    · rename_i nodeName firstRunIndex taskDataMain hfind
      obtain ⟨name, -, hname⟩ := List.exists_of_findSome?_eq_some hfind
      obtain ⟨⟨k, task⟩, hcandidate, he⟩ := Option.map_eq_some_iff.mp hname
      obtain ⟨rfl, rfl, rfl⟩ : name = nodeName ∧ k = firstRunIndex ∧ task = taskDataMain := by
        simpa using he
      obtain ⟨main, hmain, rfl⟩ := releaseCandidate_eq_some hcandidate
      have hentry : d.waitingExecution.main name k = main := by simp [IWaiting.main, hmain]
      have hdelete := @inWaiting_deleteEntry _ _ name n i k batch d.waitingExecution
      rw [hentry] at hdelete
      split_ifs with hitems
      · unfold held onStack
        simp only [List.map_append, List.sum_append, List.map_cons, List.map_nil, List.sum_cons,
          List.sum_nil, add_zero, IExecuteData.holds, eq_comm (a := name)]
        rw [← List.map_append, holds_released hb]
        omega
      · rw [ih]
        have hzero := @holds_eq_zero_of_no_items _ _ i batch main hb (by simpa using hitems)
        unfold held
        rw [hzero] at hdelete
        simp only [ite_self, add_zero] at hdelete
        rw [hdelete]

theorem held_release (hb : batch ≠ []) :
    (d.release workflow).held n i batch = d.held n i batch := by
  unfold release
  split_ifs
  · exact held_releaseWaiting hb _
  · rfl

end Release

/-! ## The execution loop -/

/-- The loop with what it did so far. -/
structure State (α : Type) where
  data : ExecutionData α
  /-- The stack items taken off the stack. -/
  executed : List (IExecuteData α)
  /-- The batches delivered, with the input. -/
  delivered : List (IConnection × List α)
  /-- The stack items that no delivered batch is in: the execution was started with them, or a
  delivery started the parents of a node. -/
  started : List (IExecuteData α)

inductive Event (α : Type)
  /-- Take the next node off the stack, to run it. -/
  | popExecutionStack
  /-- Put the node back, to run it next or after all others. -/
  | pushExecutionStack (next : Bool)
  | upsertTaskData (node : String) (runIndex : ℕ) (outputs : List (List α))
  | addNodeToBeExecuted (connectionData : IConnection) (outputIndex : ℕ) (parentNodeName : String)
      (nodeSuccessData : List (List α)) (runIndex : ℕ)
  /-- Look at the waiting nodes. -/
  | release

namespace State

variable (workflow : Workflow) (emptyItem : α)

def start (runData : IRunData α) (nodeExecutionStack : List (IExecuteData α)) : State α where
  data := ⟨runData, nodeExecutionStack, .empty, .empty⟩
  executed := []
  delivered := []
  started := nodeExecutionStack

/-- The loop delivers an output that is there, along a connection of the workflow, to a node of the
workflow. An output without items is left out, except at the further inputs of the legacy order. -/
def Delivers (connectionData : IConnection) (outputIndex : ℕ) (parentNodeName : String)
    (nodeSuccessData : List (List α)) (batch : List α) : Prop :=
  connectionData ∈ workflow.outputConnections parentNodeName outputIndex ∧
    (workflow.nodes.get? connectionData.node).isSome ∧ nodeSuccessData[outputIndex]? = some batch ∧
    (batch ≠ [] ∨ 0 < connectionData.index ∧ workflow.isLegacyExecutionOrder = true)

instance (connectionData : IConnection) (outputIndex : ℕ) (parentNodeName : String)
    (nodeSuccessData : List (List α)) (batch : List α) :
    Decidable (Delivers workflow connectionData outputIndex parentNodeName nodeSuccessData batch) :=
  inferInstanceAs (Decidable (_ ∧ _ ∧ _ ∧ _))

/-- One step of the loop, `none` where it cannot happen. -/
def next (s : State α) : Event α → Option (State α)
  | .popExecutionStack =>
    match s.data.nodeExecutionStack with
    | [] => none
    | item :: stack =>
      some { s with
        data := { s.data with nodeExecutionStack := stack }
        executed := item :: s.executed }
  | .pushExecutionStack next =>
    match s.executed with
    | [] => none
    | item :: executed =>
      let stack := s.data.nodeExecutionStack
      some { s with
        data := { s.data with nodeExecutionStack := if next then item :: stack else stack ++ [item] }
        executed }
  | .upsertTaskData node runIndex outputs =>
    let runs := (s.data.runData.get? node).getD []
    let runs := if runIndex < runs.length then runs.set runIndex outputs else runs ++ [outputs]
    some { s with data := { s.data with runData := s.data.runData.set node runs } }
  | .addNodeToBeExecuted connectionData outputIndex parentNodeName nodeSuccessData runIndex =>
    let batch := nodeSuccessData[outputIndex]?.getD []
    if Delivers workflow connectionData outputIndex parentNodeName nodeSuccessData batch then
      some {
        data := WorkflowExecute.addNodeToBeExecuted workflow emptyItem s.data connectionData
          outputIndex parentNodeName (some nodeSuccessData) runIndex
        executed := s.executed
        delivered := (connectionData, batch) :: s.delivered
        started := s.started ++ startedBy workflow emptyItem s.data connectionData outputIndex
          parentNodeName (some nodeSuccessData) runIndex }
    else none
  | .release => some { s with data := s.data.release workflow }

def follow : List (Event α) → State α → Option (State α)
  | [], s => some s
  | e :: es, s => (s.next workflow emptyItem e).bind (follow es)

/-! ## Where the batches are -/

variable (s : State α) (n : String) (i : ℕ) (batch : List α)

/-- How often the batch is at the input of the node, in a stack item or a waiting entry. -/
def present : ℕ := s.data.held n i batch + onStack n i batch s.executed

/-- How often the batch was delivered to the input of the node, or an execution started there. -/
def received : ℕ := s.delivered.count (⟨n, i⟩, batch) + onStack n i batch s.started

/-- **Every batch of items is where it was delivered, exactly once.** -/
def Kept : Prop := ∀ n i batch, batch ≠ [] → s.present n i batch = s.received n i batch

/-- The step writes no new waiting entry over a batch of items. -/
def Spares : Event α → Prop
  | .addNodeToBeExecuted connectionData _ _ _ _ =>
    ∀ data ∈ overwritten workflow s.data connectionData, data.getD [] = []
  | _ => True

instance : (e : Event α) → Decidable (s.Spares workflow e)
  | .addNodeToBeExecuted .. => inferInstanceAs (Decidable (∀ data ∈ _, _))
  | .popExecutionStack => inferInstanceAs (Decidable True)
  | .pushExecutionStack _ => inferInstanceAs (Decidable True)
  | .upsertTaskData .. => inferInstanceAs (Decidable True)
  | .release => inferInstanceAs (Decidable True)

/-- No step of a run writes a new waiting entry over a batch of items. -/
def Spared : List (Event α) → State α → Prop
  | [], _ => True
  | e :: es, s => s.Spares workflow e ∧ ∀ t ∈ s.next workflow emptyItem e, Spared es t

instance decidableSpared : (events : List (Event α)) → (s : State α) →
    Decidable (Spared workflow emptyItem events s)
  | [], _ => inferInstanceAs (Decidable True)
  | e :: es, s =>
    have := decidableSpared es
    inferInstanceAs (Decidable (s.Spares workflow e ∧ ∀ t ∈ s.next workflow emptyItem e, _))

/-! ## What a run loses -/

/-- How often a step loses the batch at the input of the node. -/
def lostBy : Event α → ℕ
  | .addNodeToBeExecuted connectionData _ _ _ _ => lost workflow s.data n i batch connectionData
  | _ => 0

/-- How often a run loses the batch at the input of the node. -/
def lostAlong : List (Event α) → State α → ℕ
  | [], _ => 0
  | e :: es, s => s.lostBy workflow n i batch e +
      ((s.next workflow emptyItem e).map (lostAlong es)).getD 0

variable {workflow emptyItem s n i batch} {t : State α} {e : Event α} {events : List (Event α)}

/-- **One step accounts for every batch**: it is where it was, it has just arrived, or it is lost. -/
theorem present_next (h : s.next workflow emptyItem e = some t) (hb : batch ≠ []) :
    t.present n i batch + s.lostBy workflow n i batch e + s.received n i batch =
      s.present n i batch + t.received n i batch := by
  unfold present received lostBy
  cases e with
  | popExecutionStack =>
    simp only [next] at h
    split at h
    · cases h
    · rename_i item stack hstack
      cases h
      simp only [held, hstack, onStack, List.map_cons, List.sum_cons]
      omega
  | pushExecutionStack next =>
    simp only [State.next] at h
    split at h
    · cases h
    · rename_i item executed hexecuted
      cases h
      simp only [held, hexecuted, onStack, List.map_cons, List.sum_cons]
      split_ifs
      · simp only [List.map_cons, List.sum_cons]
        omega
      · simp only [List.map_append, List.map_cons, List.map_nil, List.sum_append, List.sum_cons,
          List.sum_nil]
        omega
  | upsertTaskData node runIndex outputs =>
    cases h
    simp only [held, add_zero]
  | addNodeToBeExecuted connectionData outputIndex parentNodeName nodeSuccessData runIndex =>
    simp only [next] at h
    split_ifs at h with hdelivers
    cases h
    obtain ⟨-, hnode, hbatch, -⟩ := hdelivers
    have hheld := @held_addNodeToBeExecuted _ _ workflow emptyItem s.data n i batch connectionData
      hnode outputIndex parentNodeName (some nodeSuccessData) runIndex
    have harrives : List.count (⟨n, i⟩, batch)
        ((connectionData, nodeSuccessData[outputIndex]?.getD []) :: s.delivered) =
        s.delivered.count (⟨n, i⟩, batch) + arrives n i batch connectionData
          ((some nodeSuccessData).bind (·[outputIndex]?)) := by
      rw [List.count_cons, hbatch]
      congr 1
      unfold arrives
      rw [Option.bind_some, hbatch]
      obtain ⟨node, index⟩ := connectionData
      simp only [Option.getD_some, beq_iff_eq, Prod.mk.injEq, IConnection.mk.injEq,
        Option.some.injEq, eq_comm (a := node), eq_comm (a := index), and_assoc]
    rw [harrives]
    simp only [onStack, List.map_append, List.sum_append] at hheld ⊢
    omega
  | release =>
    cases h
    simp only [held_release hb, add_zero]

/-- **A run accounts for every batch.** -/
theorem present_follow (h : s.follow workflow emptyItem events = some t) (hb : batch ≠ []) :
    t.present n i batch + s.lostAlong workflow emptyItem n i batch events + s.received n i batch =
      s.present n i batch + t.received n i batch := by
  induction events generalizing s with
  | nil =>
    cases h
    rfl
  | cons e es ih =>
    obtain ⟨u, hu, ht⟩ := Option.bind_eq_some_iff.mp h
    have hstep := @present_next _ _ workflow emptyItem s n i batch u e hu hb
    have hrest := ih ht
    simp only [lostAlong, hu, Option.map_some, Option.getD_some]
    omega

omit [DecidableEq α] in
theorem mem_iff_at? {β : Type} {main : List (Option β)} {b : β} :
    some b ∈ main ↔ ∃ i, at? main i = some b := by
  simp [at?, List.mem_iff_getElem?, Option.join_eq_some_iff]

theorem spares_iff : s.Spares workflow e ↔
    ∀ n i batch, batch ≠ [] → s.lostBy workflow n i batch e = 0 := by
  cases e with
  | addNodeToBeExecuted connectionData outputIndex parentNodeName nodeSuccessData runIndex =>
    simp only [Spares, lostBy, lost]
    constructor
    · intro h n i batch hb
      split_ifs
      · exact if_neg fun hat => hb (h _ (mem_iff_at?.mpr ⟨i, hat⟩))
      · rfl
    · intro h data hdata
      cases data with
      | none => rfl
      | some batch =>
        obtain ⟨i, hat⟩ := mem_iff_at?.mp hdata
        by_contra hb
        have := h connectionData.node i batch hb
        simp [holds, hat] at this
  | _ => simp [Spares, lostBy]

theorem spared_iff (h : s.follow workflow emptyItem events = some t) :
    s.Spared workflow emptyItem events ↔
      ∀ n i batch, batch ≠ [] → s.lostAlong workflow emptyItem n i batch events = 0 := by
  induction events generalizing s with
  | nil => simp [Spared, lostAlong]
  | cons e es ih =>
    obtain ⟨u, hu, ht⟩ := Option.bind_eq_some_iff.mp h
    simp only [Spared, lostAlong, hu, Option.mem_some_iff, forall_eq', Option.map_some,
      Option.getD_some, Nat.add_eq_zero_iff, spares_iff, ih ht]
    exact ⟨fun ⟨h₁, h₂⟩ n i batch hb => ⟨h₁ n i batch hb, h₂ n i batch hb⟩,
      fun h => ⟨fun n i batch hb => (h n i batch hb).1, fun n i batch hb => (h n i batch hb).2⟩⟩

theorem kept_start (runData : IRunData α) (stack : List (IExecuteData α)) :
    (start runData stack).Kept := by
  intro n i batch _
  simp [present, received, start, held, inWaiting, IWaiting.entriesOf, onStack]

end State

/-! ## A switch into a merge -/

/-- A node with four outputs, of which all but the third lead to the first input of a merge. -/
def switchMerge : Workflow where
  nodes := (OrderedMap.empty.set "Switch" ⟨"Switch", 1, none⟩).set "Merge" ⟨"Merge", 2, none⟩
  connectionsBySourceNode := OrderedMap.empty.set "Switch"
    [[⟨"Merge", 0⟩], [⟨"Merge", 0⟩], [⟨"Merge", 1⟩], [⟨"Merge", 0⟩]]
  executionOrder := some .v1

def switchRun : List (Event ℕ) :=
  let deliver outputIndex input :=
    .addNodeToBeExecuted ⟨"Merge", input⟩ outputIndex "Switch" [[1], [2], [3], [4]] 0
  [.popExecutionStack, .upsertTaskData "Switch" 0 [[1], [2], [3], [4]], deliver 0 0, deliver 1 0,
    deliver 2 1, deliver 3 0]

def switchStart : State ℕ := .start .empty [⟨"Switch", [some [0]], []⟩]

end N8n.WorkflowExecute
