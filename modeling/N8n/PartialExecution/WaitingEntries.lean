import N8n.Foundations.Transition
import N8n.PartialExecution.ExecutionStack

/-!
# Waiting entries of a partial execution

The waiting entries that a partial execution starts with are completed by the deliveries of the full
engine. The engine enqueues a node once no slot of an entry is `null`, so that it relies on one slot
for every input; an array with a hole, or one that is too short, looks complete too early.

## Main definitions

* `addDelivery`: a delivery to a node with several inputs, on arrays that may have holes
* `OneSlotPerInput`: a slot for every input, `null` where data is missing
* `OnlyWhenComplete`: along all deliveries the node is only enqueued with data at all inputs
* `EngineReady`: what the engine assumes of waiting entries

## Main results

* `onlyWhenComplete_of_oneSlotPerInput`: what the engine relies on
* `addNodeToBeExecuted_entriesOf`: on entries with one slot for every input this is the delivery of
  the engine
* `waitingEntries_iff`: the entries made for a partial execution are what the engine assumes exactly
  when there are none
* `not_waitingEntries`: a node with three inputs that runs on two of them
-/

namespace N8n.PartialExecution

open OrderedMap

open WorkflowExecute (at? setAt at?_setAt)

variable {α : Type}

/-! ## Deliveries -/

def HasData (main : Slots (List α)) (input : ℕ) : Prop := ∃ data, at? main input = some (some data)

/-- The slot of an input is `null`, or there is nothing at all. -/
def isFree (main : Slots (List α)) (input : ℕ) : Bool := (at? main input).join.isNone

/-- No slot is `null`. A hole is not. -/
def allDataFound (main : Slots (List α)) : Bool :=
  main.all fun slot => match slot with
    | some none => false
    | _ => true

/-- The first waiting entry without data for the input. -/
def findFreeEntry (entries : OrderedMap ℕ (Slots (List α))) (input : ℕ) : Option ℕ :=
  (entries.keys.insertionSort (· ≤ ·)).find? fun key => isFree ((entries.get? key).getD []) input

/-- A delivery to a node with several inputs: the waiting entries after it, and the data with which
the node is enqueued. -/
def addDelivery (numberOfInputs : ℕ) (entries : OrderedMap ℕ (Slots (List α))) (input : ℕ)
    (batch : Option (List α)) : OrderedMap ℕ (Slots (List α)) × Option (Slots (List α)) :=
  let waitingNodeIndex := (findFreeEntry entries input).getD entries.size
  let main := if (findFreeEntry entries input).isSome then (entries.get? waitingNodeIndex).getD []
    else List.replicate numberOfInputs (some none)
  let main := setAt main input (some batch)
  if allDataFound main then (entries.delete waitingNodeIndex, some main)
  else (entries.set waitingNodeIndex main, none)

/-- A delivery and the data with which the node is enqueued by it. -/
structure Delivery (α : Type) where
  input : ℕ
  batch : Option (List α)
  enqueued : Option (Slots (List α))

def deliveries (numberOfInputs : ℕ) :
    Transition.System (OrderedMap ℕ (Slots (List α))) (Delivery α) where
  init _ := True
  step s e t := addDelivery numberOfInputs s e.input e.batch = (t, e.enqueued)

/-- Along all deliveries to connected inputs the node is only enqueued with data at all of them. -/
def OnlyWhenComplete (numberOfInputs : ℕ) (connected : List ℕ)
    (entries : OrderedMap ℕ (Slots (List α))) : Prop :=
  ∀ es t, (deliveries numberOfInputs).Run entries es t → (∀ e ∈ es, e.input ∈ connected) →
    ∀ e ∈ es, ∀ main, e.enqueued = some main → ∀ i ∈ connected, HasData main i

/-- A slot for every input, with `null` where data is missing. -/
def OneSlotPerInput (numberOfInputs : ℕ) (main : Slots (List α)) : Prop :=
  main.length = numberOfInputs ∧ ∀ i < numberOfInputs, (at? main i).isSome = true

/-! ## Arrays -/

section Arrays

variable {main : Slots (List α)} {input i : ℕ} {batch : Option (List α)}

theorem allDataFound_iff : allDataFound main = true ↔ ∀ i, at? main i ≠ some none := by
  unfold allDataFound at?
  rw [List.all_eq_true]
  constructor
  · intro h i hnull
    cases hget : main[i]? with
    | none => simp [hget] at hnull
    | some slot =>
      have := h slot (List.mem_of_getElem? hget)
      simp_all
  · intro h slot hslot
    obtain ⟨i, hi⟩ := List.mem_iff_getElem?.mp hslot
    have hne := h i
    rw [hi, Option.join_some] at hne
    rcases slot with _ | _ | data <;> simp_all

theorem length_setAt {β : Type} {main : List (Option β)} {value : Option β} (h : input < main.length) :
    (setAt main input value).length = main.length := by
  unfold setAt
  rw [List.length_set, List.length_append, List.length_replicate]
  omega

theorem OneSlotPerInput.setAt {n : ℕ} (h : OneSlotPerInput n main) (hinput : input < n) :
    OneSlotPerInput n (setAt main input (some batch)) := by
  obtain ⟨hlength, hslots⟩ := h
  refine ⟨?_, fun i hi => ?_⟩
  · rw [length_setAt (by omega), hlength]
  · rw [at?_setAt]
    split_ifs
    · rfl
    · exact hslots i hi

theorem OneSlotPerInput.replicate (n : ℕ) :
    OneSlotPerInput n (List.replicate n (some none) : Slots (List α)) := by
  refine ⟨List.length_replicate, fun i hi => ?_⟩
  unfold at?
  rw [List.getElem?_replicate, if_pos hi]
  rfl

/-- Where every input has a slot, and none is `null`, there is data. -/
theorem OneSlotPerInput.hasData {n : ℕ} (h : OneSlotPerInput n main)
    (hall : allDataFound main = true) (hi : i < n) : HasData main i := by
  have hsome := h.2 i hi
  have hne := allDataFound_iff.1 hall i
  unfold HasData
  rcases hat : at? main i with _ | _ | data
  · simp [hat] at hsome
  · exact absurd hat hne
  · exact ⟨data, rfl⟩

end Arrays

/-! ## What a delivery does -/

section Deliveries

variable {n : ℕ} {entries t : OrderedMap ℕ (Slots (List α))} {input : ℕ} {batch : Option (List α)}
  {connected : List ℕ} {P : Slots (List α) → Prop}

/-- A delivery sets the slot of its input in an entry that has no data for it, or in a new one. The
node is enqueued with that entry if no slot of it is `null`. -/
theorem addDelivery_cases (n : ℕ) (entries : OrderedMap ℕ (Slots (List α))) (input : ℕ)
    (batch : Option (List α)) :
    ∃ key main, ((entries.get? key = some main ∧ isFree main input = true) ∨
        (findFreeEntry entries input = none ∧ main = List.replicate n (some none))) ∧
      (addDelivery n entries input batch =
          (entries.delete key, some (setAt main input (some batch))) ∧
        allDataFound (setAt main input (some batch)) = true ∨
      addDelivery n entries input batch =
          (entries.set key (setAt main input (some batch)), none) ∧
        allDataFound (setAt main input (some batch)) = false) := by
  unfold addDelivery
  cases hfind : findFreeEntry entries input with
  | some key =>
    have hkey : key ∈ entries.keys := by
      have hmem := List.mem_of_find?_eq_some hfind
      rwa [List.mem_insertionSort] at hmem
    obtain ⟨main, hmain⟩ := mem_keys.mp hkey
    refine ⟨key, main, .inl ⟨hmain, ?_⟩, ?_⟩
    · have hfree := List.find?_some hfind
      simpa [hmain] using hfree
    · simp only [Option.isSome_some, if_true, Option.getD_some, hmain]
      cases hall : allDataFound (setAt main input (some batch)) <;> simp
  | none =>
    refine ⟨entries.size, List.replicate n (some none), .inr ⟨rfl, rfl⟩, ?_⟩
    simp only [Option.isSome_none, Bool.false_eq_true, if_false, Option.getD_none]
    cases hall : allDataFound (setAt (List.replicate n (some none)) input (some batch)) <;> simp

/-- **The rule for deliveries**: a property of entries that new entries have and that setting a slot
keeps holds of all entries after a delivery, and of what is enqueued before its slot was set. -/
theorem addDelivery_invariant (hnew : P (List.replicate n (some none)))
    (hset : ∀ {main}, P main → isFree main input = true → P (setAt main input (some batch)))
    (h : ∀ main ∈ entries.values, P main) :
    (∀ main ∈ (addDelivery n entries input batch).1.values, P main) ∧
    ∀ enqueued, (addDelivery n entries input batch).2 = some enqueued →
      ∃ main, P main ∧ isFree main input = true ∧ enqueued = setAt main input (some batch) ∧
        allDataFound enqueued = true := by
  obtain ⟨key, main, hmain, hcase⟩ := addDelivery_cases n entries input batch
  have hfree : P main ∧ isFree main input = true := by
    rcases hmain with ⟨hget, hfree⟩ | ⟨-, rfl⟩
    · exact ⟨h main (mem_values.mpr ⟨key, hget⟩), hfree⟩
    · refine ⟨hnew, ?_⟩
      unfold isFree at?
      rw [List.getElem?_replicate]
      split_ifs <;> rfl
  rcases hcase with ⟨heq, hall⟩ | ⟨heq, -⟩
  · rw [heq]
    refine ⟨?_, ?_⟩
    · intro other hother
      obtain ⟨k, hk⟩ := mem_values.mp hother
      rw [get?_delete] at hk
      split_ifs at hk
      exact h other (mem_values.mpr ⟨k, hk⟩)
    · intro enqueued henqueued
      cases henqueued
      exact ⟨main, hfree.1, hfree.2, rfl, hall⟩
  · rw [heq]
    refine ⟨?_, fun enqueued henqueued => by cases henqueued⟩
    intro other hother
    rcases mem_values_set hother with rfl | hother
    · exact hset hfree.1 hfree.2
    · exact h other hother

/-- Along a run of deliveries such a property holds of everything that is enqueued, before its last
slot was set. -/
theorem run_invariant {es : List (Delivery α)}
    (hrun : (deliveries n).Run entries es t) (hnew : P (List.replicate n (some none)))
    (hset : ∀ {main input batch}, input ∈ connected → P main → isFree main input = true →
      P (setAt main input (some batch)))
    (h : ∀ main ∈ entries.values, P main) (hes : ∀ e ∈ es, e.input ∈ connected) :
    ∀ e ∈ es, ∀ enqueued, e.enqueued = some enqueued →
      ∃ main, P main ∧ isFree main e.input = true ∧
        enqueued = setAt main e.input (some e.batch) ∧ allDataFound enqueued = true := by
  suffices hboth : (∀ main ∈ t.values, P main) ∧ ∀ e ∈ es, ∀ enqueued,
      e.enqueued = some enqueued → ∃ main, P main ∧ isFree main e.input = true ∧
        enqueued = setAt main e.input (some e.batch) ∧ allDataFound enqueued = true from hboth.2
  induction hrun with
  | nil => exact ⟨h, by simp⟩
  | @snoc es u v e _ hstep ih =>
    obtain ⟨hvalues, henqueued⟩ := ih fun e he => hes e (List.mem_append_left _ he)
    have hconnected := hes e (by simp)
    have hnext := @addDelivery_invariant _ n u e.input e.batch P hnew (hset hconnected) hvalues
    rw [show addDelivery n u e.input e.batch = _ from hstep] at hnext
    refine ⟨hnext.1, ?_⟩
    intro e' he'
    rcases List.mem_append.mp he' with hold | hlast
    · exact henqueued e' hold
    · rw [List.mem_singleton.mp hlast]
      exact hnext.2

/-- **What the engine relies on**: from entries with one slot for every input the node is only
enqueued with data at all of them. -/
theorem onlyWhenComplete_of_oneSlotPerInput (hconnected : ∀ i ∈ connected, i < n)
    (h : ∀ main ∈ entries.values, OneSlotPerInput n main) : OnlyWhenComplete n connected entries := by
  intro es t hrun hes e he enqueued henqueued i hi
  obtain ⟨main, hmain, -, rfl, hall⟩ := @run_invariant _ n entries t connected _ es hrun
    (.replicate n) (fun hinput hP _ => hP.setAt (hconnected _ hinput)) h hes e he enqueued henqueued
  exact (hmain.setAt (hconnected _ (hes e he))).hasData hall (hconnected i hi)

theorem OnlyWhenComplete.step (h : OnlyWhenComplete n connected entries)
    (hinput : input ∈ connected) :
    OnlyWhenComplete n connected (addDelivery n entries input batch).1 ∧
      ∀ enqueued, (addDelivery n entries input batch).2 = some enqueued →
        ∀ i ∈ connected, HasData enqueued i := by
  set e : Delivery α := ⟨input, batch, (addDelivery n entries input batch).2⟩ with he
  have hstep : (deliveries n).step entries e (addDelivery n entries input batch).1 := rfl
  constructor
  · intro es u hrun hes e' he'
    refine h (e :: es) u (hrun.cons hstep) ?_ e' (List.mem_cons_of_mem _ he')
    intro e'' he''
    rcases List.mem_cons.mp he'' with rfl | hin
    · exact hinput
    · exact hes e'' hin
  · refine h [e] _ (Transition.System.Run.nil.cons hstep) ?_ e (by simp)
    intro e' he'
    rw [List.mem_singleton.mp he']
    exact hinput

end Deliveries

/-! ## The deliveries of the engine -/

section Engine

open WorkflowExecute (InputData IConnection ExecutionData Workflow findWaitingNodeIndex
  waitingNodeIndexFor addToWaiting startWaiting keepWaiting addNodeToBeExecuted setAt_of_lt entryFor
  lt_length_entryFor entriesOf_addToWaiting entriesOf_foldl_enqueue entriesOf_deleteEntry
  entriesOf_keepWaiting)

variable {main : InputData α} {input : ℕ} {batch : Option (List α)}
  {entries : OrderedMap ℕ (InputData α)}

theorem isFree_map_some : isFree (main.map some) input = (at? main input).isNone := by
  unfold isFree
  rw [at?_map_some]
  rfl

theorem allDataFound_map_some : allDataFound (main.map some) = main.all Option.isSome := by
  unfold allDataFound
  rw [List.all_map]
  congr 1
  funext data
  cases data <;> rfl

theorem setAt_map_some (h : input < main.length) :
    setAt (main.map some) input (some batch) = (setAt main input batch).map some := by
  rw [setAt_of_lt (by rwa [List.length_map]), setAt_of_lt h, List.map_set]

theorem findFreeEntry_mapValues :
    findFreeEntry (entries.mapValues (List.map some)) input = findWaitingNodeIndex entries input := by
  unfold findFreeEntry findWaitingNodeIndex
  rw [keys_mapValues]
  congr 1
  funext key
  rw [get?_mapValues]
  cases entries.get? key with
  | none => rfl
  | some main => exact isFree_map_some

variable {workflow : Workflow} {emptyItem : α} {d : ExecutionData α} {connectionData : IConnection}

theorem addDelivery_mapValues {n : ℕ} (h : input < (entryFor n entries input).length) :
    let key := waitingNodeIndexFor entries input
    let main := setAt (entryFor n entries input) input batch
    addDelivery n (entries.mapValues (List.map some)) input batch =
      if main.all Option.isSome then
        ((entries.mapValues (List.map some)).delete key, some (main.map some))
      else ((entries.mapValues (List.map some)).set key (main.map some), none) := by
  have hmap : (if (findWaitingNodeIndex entries input).isSome then
      ((entries.mapValues (List.map some)).get? (waitingNodeIndexFor entries input)).getD []
      else List.replicate n (some none)) = (entryFor n entries input).map some := by
    unfold entryFor
    split_ifs
    · rw [get?_mapValues]
      cases entries.get? (waitingNodeIndexFor entries input) <;> rfl
    · rw [List.map_replicate]
  unfold addDelivery
  rw [findFreeEntry_mapValues, size_mapValues]
  dsimp only
  rw [← waitingNodeIndexFor, hmap, ← allDataFound_map_some, ← setAt_map_some h]

end Engine

/-! ## The entries of a partial execution -/

/-- The main slots of the waiting entries of a node. An entry without any counts as empty. -/
def Recreated.mainSlots (r : Recreated α) (nodeName : String) : OrderedMap ℕ (Slots (List α)) :=
  (r.waitingExecution.entriesOf nodeName).mapValues fun entry => (entry.get? "main").getD []

/-- What the engine assumes of the waiting entries of a node, and what it is for. -/
structure EngineReady (numberOfInputs : ℕ) (connected : List ℕ)
    (entries : OrderedMap ℕ (Slots (List α))) : Prop where
  slots : ∀ main ∈ entries.values, OneSlotPerInput numberOfInputs main
  complete : OnlyWhenComplete numberOfInputs connected entries

def SourceConnectionGroup.Supplies (runData : IRunData α) (group : SourceConnectionGroup)
    (input : ℕ) : Prop :=
  ∃ c ∈ group.connections, c.type = "main" ∧ c.inputIndex = input ∧
    (c.incomingData runData).isSome = true

section Recreated

variable {localeCompare : String → String → ℤ} {disabled : INode → Bool} {emptyItem : α}
  {graph : NodeGraph} {runData : IRunData α} {pinData : IPinData α} {startNodes : List INode}
  {r : Recreated α} {group : SourceConnectionGroup} {connections : List NodeConnection}
  {numberOfInputs : String → ℕ} {connected : String → List ℕ}

theorem values_mainSlots
    (h : recreateNodeExecutionStack localeCompare disabled emptyItem graph runData pinData
      startNodes = .ok r) (nodeName : String) :
    (r.mainSlots nodeName).values =
      (waitingGroups localeCompare graph runData pinData startNodes nodeName).map fun g =>
        ((Entry.fill (NodeConnection.waitingData runData) .empty g.connections).get?
          "main").getD [] := by
  unfold Recreated.mainSlots
  rw [values_mapValues, (recreateNodeExecutionStack_eq_ok h).waiting.values, List.map_map]
  rfl

/-- A filled slot holds data, so that no slot is `null`. -/
theorem at?_fill_eq_some {i : ℕ} {v : Option (List α)}
    (h : at? (((Entry.fill (NodeConnection.waitingData runData) .empty group.connections).get?
      "main").getD []) i = some v) : v.isSome = true ∧ group.Supplies runData i := by
  obtain ⟨c, hc, htype, hindex, rfl, hsome⟩ := Entry.slot_fill_eq_some h
  refine ⟨hsome, c, hc, htype, hindex, ?_⟩
  simpa [NodeConnection.waitingData] using hsome

/-- A group that makes a waiting entry has a main connection without data. -/
theorem exists_missing {nodeName : String}
    (h : group ∈ waitingGroups localeCompare graph runData pinData startNodes nodeName) :
    ∃ c ∈ graph.connections.values, c.type = "main" ∧ c.to.name = nodeName ∧
      ¬ group.Supplies runData c.inputIndex := by
  obtain ⟨n, hn, hgroup⟩ := List.mem_flatMap.mp h
  obtain ⟨hgroup, hwaits⟩ := List.mem_filter.mp hgroup
  have hshaped := groupsOf_shaped hgroup
  have hincomplete : ¬ group.complete = true := by
    intro hcomplete
    simp [SourceConnectionGroup.waits, hcomplete] at hwaits
  rw [hshaped.complete] at hincomplete
  push Not at hincomplete
  obtain ⟨c, hc, hdata⟩ := hincomplete
  rw [ne_eq, Bool.not_eq_true] at hdata
  obtain ⟨hin, hto⟩ := List.mem_filter.mp (hshaped.mem c hc)
  refine ⟨c, hin, hshaped.withoutData c hc hdata, ?_, ?_⟩
  · rw [of_decide_eq_true hto]
    simpa using (List.mem_filter.mp hn).2
  · rintro ⟨c', hc', -, hindex, hsome⟩
    rw [hshaped.eq_of_inputIndex hc' hc hindex] at hsome
    -- run data of a source is run data
    have hnone : runData.get? c.from.name = none := by
      simp only [hasData, Bool.or_eq_false_iff, Option.isSome_eq_false_iff,
        Option.isNone_iff_eq_none] at hdata
      exact hdata.1
    simp [NodeConnection.incomingData, getIncomingDataFromAnyRun, hnone] at hsome

/-- **The entries of a partial execution** are what the engine assumes exactly when there are
none. -/
theorem waitingEntries_iff
    (h : recreateNodeExecutionStack localeCompare disabled emptyItem graph runData pinData
      startNodes = .ok r)
    (hgraph : ∀ c ∈ graph.connections.values, c.type = "main" →
      c.inputIndex ∈ connected c.to.name)
    (hinputs : ∀ nodeName, ∀ i ∈ connected nodeName, i < numberOfInputs nodeName) :
    (∀ nodeName, EngineReady (numberOfInputs nodeName) (connected nodeName)
        (r.mainSlots nodeName)) ↔
      ∀ nodeName, waitingGroups localeCompare graph runData pinData startNodes nodeName = [] := by
  constructor
  · intro hready nodeName
    rw [List.eq_nil_iff_forall_not_mem]
    intro group hgroup
    obtain ⟨c, hc, htype, rfl, hmissing⟩ := exists_missing hgroup
    have hslots := (hready c.to.name).slots _
      (by rw [values_mainSlots h]; exact List.mem_map.mpr ⟨group, hgroup, rfl⟩)
    -- the slot of the missing input is a hole
    have hslot := hslots.2 c.inputIndex (hinputs _ _ (hgraph c hc htype))
    obtain ⟨v, hv⟩ := Option.isSome_iff_exists.mp hslot
    exact hmissing (at?_fill_eq_some hv).2
  · intro hnone nodeName
    have hslots : ∀ main ∈ (r.mainSlots nodeName).values,
        OneSlotPerInput (numberOfInputs nodeName) main := by
      rw [values_mainSlots h, hnone nodeName]
      exact fun _ hmain => absurd hmain List.not_mem_nil
    exact ⟨hslots, onlyWhenComplete_of_oneSlotPerInput (hinputs nodeName) hslots⟩

end Recreated

/-! ## A node with three inputs -/

section ThreeInputs

/-- One source is connected. -/
theorem waitingEntries_iff_first :
    ∃ r, recreatedAt 0 = .ok r ∧ ∀ nodeName, EngineReady 1 [0] (r.mainSlots nodeName) := by
  obtain ⟨r, hr⟩ : ∃ r, recreatedAt 0 = .ok r := ⟨_, rfl⟩
  refine ⟨r, hr, (@waitingEntries_iff _ _ _ _ _ _ _ _ _ (fun _ => 1) (fun _ => [0]) hr ?_ ?_).mpr ?_⟩
  · intro c hc _
    obtain rfl : c = ⟨sourceNode, mergeNode, "main", 0, 0⟩ := List.mem_singleton.mp hc
    exact List.mem_singleton_self 0
  · intro _ i hi
    rw [List.mem_singleton.mp hi]
    exact Nat.one_pos
  · intro nodeName
    unfold waitingGroups
    by_cases hname : mergeNode.name = nodeName
    · subst hname
      rfl
    · simp [hname]

/-- A trigger, three nodes behind it, and a node with an input for each of the three. -/
def graphOfThree : NodeGraph :=
  let trigger : INode := ⟨"t", 0⟩
  let a : INode := ⟨"a", 1⟩
  let b : INode := ⟨"b", 2⟩
  let c : INode := ⟨"c", 3⟩
  let merge : INode := ⟨"m", 4⟩
  ([⟨trigger, a, "main", 0, 0⟩, ⟨trigger, b, "main", 0, 0⟩, ⟨trigger, c, "main", 0, 0⟩,
    ⟨a, merge, "main", 0, 0⟩, ⟨b, merge, "main", 0, 1⟩, ⟨c, merge, "main", 0, 2⟩].foldl
      NodeGraph.setConnection (NodeGraph.empty.addNodes [trigger, a, b, c, merge]))

/-- The trigger and the first of the three have run. -/
def ranFirst : IRunData ℕ :=
  (OrderedMap.empty.set "t" [⟨some (.set .empty "main" [some [5]])⟩]).set
    "a" [⟨some (.set .empty "main" [some [7]])⟩]

/-- The two that have not run are started, and the last node waits for them. -/
def recreatedOfThree : Except String (Recreated ℕ) :=
  recreateNodeExecutionStack (fun _ _ => 0) (fun _ => false) 0 graphOfThree ranFirst .empty
    [⟨"b", 2⟩, ⟨"c", 3⟩, ⟨"m", 4⟩]

/-- The node runs as soon as one of the other two has, without the last. -/
theorem not_waitingEntries :
    ∃ r, recreatedOfThree = .ok r ∧ ¬ EngineReady 3 [0, 1, 2] (r.mainSlots "m") ∧
      ¬ OnlyWhenComplete 3 [0, 1, 2] (r.mainSlots "m") := by
  obtain ⟨r, hr⟩ : ∃ r, recreatedOfThree = .ok r := ⟨_, rfl⟩
  have hslots : (recreatedOfThree.map fun r => (r.mainSlots "m").entries) =
      .ok [(0, [some (some [7])])] := rfl
  rw [hr] at hslots
  have hentries : r.mainSlots "m" = .set .empty 0 [some (some [7])] :=
    eq_of_entries (Except.ok.inj hslots)
  have hearly : ¬ OnlyWhenComplete 3 [0, 1, 2] (r.mainSlots "m") := by
    rw [hentries]
    intro hcomplete
    have hdelivered := (@OnlyWhenComplete.step _ 3 _ 1 (some [8]) _ hcomplete (by simp)).2
      [some (some [7]), some (some [8])] (by decide) 2 (by simp)
    obtain ⟨data, hdata⟩ := hdelivered
    cases hdata
  exact ⟨r, hr, fun hready => hearly hready.complete, hearly⟩

end ThreeInputs

end N8n.PartialExecution
