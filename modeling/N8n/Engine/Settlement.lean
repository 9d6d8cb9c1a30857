import N8n.Engine.Loops
import N8n.Engine.StepStore

/-!
# Settlement decisions

Which steps an edge connects, when a loop has ended, and how the planner decides the successors of
a settled step from the rows it loads.

## Main definitions

* `classifyEdge`, `targetKey`, `sourceRow`: the iteration mapping
* `isTerminalStep`, `exitSourcesInto`, `loadTerminalIterations`: the loop ledger
* `decideSuccessors`, `decideNodeFate`, `decisionKeys`: the planner
* `countExpectedSettledSteps`: how many settled steps a finished execution owes
* `planSuccessors`: the planner on what it loads from two states of the table

## Main results

* `planSuccessors_eq`: the planner loads every row it reads
* `mem_toQueue`, `mem_toSkip`: the decisions are the fates of the considered steps
* `judge_stable`: a fate once decided does not change when rows are added or settle
-/

namespace N8n.Engine

/-! ## Iteration mapping -/

inductive EdgeClass
  | plain
  | entry
  | intra
  | back
  | exit
  deriving DecidableEq

/-- The source row of an edge at a target iteration. -/
inductive SourceRow
  | row (key : StepKey)
  | none
  | pending

def loopOf (loops : List WorkflowLoop) (nodeId : String) : Option WorkflowLoop :=
  loops.find? fun loop => nodeId ∈ loop.memberIds

def classifyEdge (edge : GraphEdge) (loops : List WorkflowLoop) : EdgeClass :=
  if edge.isBackEdge then .back
  else
    let sourceLoop := loopOf loops edge.from
    let targetLoop := loopOf loops edge.to
    if sourceLoop.isSome ∧ sourceLoop = targetLoop then .intra
    else if sourceLoop.isSome then .exit
    else if targetLoop.isSome then .entry
    else .plain

/-- The target row, given the source row. -/
def targetKey (edge : GraphEdge) (edgeClass : EdgeClass) (source : StepKey) : StepKey :=
  match edgeClass with
  | .back => ⟨edge.to, source.iteration + 1⟩
  | .exit | .entry => ⟨edge.to, 0⟩
  | .plain | .intra => ⟨edge.to, source.iteration⟩

def sourceRow (edge : GraphEdge) (edgeClass : EdgeClass) (target : StepKey)
    (terminalIteration : Option ℕ) : SourceRow :=
  match edgeClass with
  | .back => if target.iteration = 0 then .none else .row ⟨edge.from, target.iteration - 1⟩
  | .entry => if 0 < target.iteration then .none else .row ⟨edge.from, 0⟩
  | .exit =>
    if 0 < target.iteration then .none
    else match terminalIteration with
      | Option.none => .pending
      | some terminal => .row ⟨edge.from, terminal⟩
  | .plain | .intra => .row ⟨edge.from, target.iteration⟩

/-! ## Loop ledger -/

def doneSlot : ℕ := 0
def loopSlot : ℕ := 1

/-- A settled step of a batch node ends the loop unless it filled the loop slot. -/
def endsLoop (status : StepStatus) (loopSlotFilled : Bool) : Bool :=
  isSettledStatus status && !loopSlotFilled

def isTerminalStep (step : StepSummary) : Bool :=
  endsLoop step.status (step.filledOutputSlots.getD loopSlot false)

/-- The loops whose last pass the edges into `targetNodeIds` read. -/
def exitSourcesInto (graph : WorkflowGraph) (loops : List WorkflowLoop)
    (targetNodeIds : List String) : List String :=
  if loops = [] then []
  else graph.edges.foldl
    (fun sources edge =>
      if edge.to ∈ targetNodeIds ∧ classifyEdge edge loops = .exit then pushNew sources edge.from
      else sources)
    []

/-- The last pass of each loop asked about, leaving out the loops that have not ended. -/
def loadTerminalIterations (table : StepTable) (batchNodeIds : List String) (batchNodeId : String) :
    Option ℕ :=
  match table.loadLatestStepSummaries batchNodeIds batchNodeId with
  | some step => if isTerminalStep step then some step.iteration else none
  | none => none

/-! ## Decisions -/

inductive Fate
  | queued
  | skipped
  | undecidable
  | outside
  deriving DecidableEq

structure SuccessorDecisions where
  toQueue : List StepKey
  toSkip : List StepKey

def SuccessorDecisions.add (decisions : SuccessorDecisions) (target : StepKey) :
    Fate → SuccessorDecisions
  | .queued => { decisions with toQueue := decisions.toQueue ++ [target] }
  | .skipped => { decisions with toSkip := decisions.toSkip ++ [target] }
  | .undecidable | .outside => decisions

/-- The slot at an index is filled; a slot beyond the list reads as empty. -/
def slotFilled (slots : List Bool) (index : ℚ) : Bool :=
  isInteger index && 0 ≤ index && slots.getD index.num.toNat false

def isLive (source : StepSummary) (edge : GraphEdge) : Bool :=
  source.status = .completed && slotFilled source.filledOutputSlots edge.outputIndex

/-- Which side of its loop a batch step decides: the body, or what follows. -/
def batchStepDecides (edgeClass : EdgeClass) (batchStep : StepSummary) : Bool :=
  if isTerminalStep batchStep then edgeClass = .exit else edgeClass ≠ .exit

section Planner

variable (graph : WorkflowGraph) (loops : List WorkflowLoop)

def isPastLoopEnd (candidate : StepKey) (steps : StepsById) : Bool :=
  match loopOf loops candidate.nodeId with
  | none => false
  | some loop =>
    if candidate.nodeId = loop.batchNodeId then false
    else match steps (stepKeyId ⟨loop.batchNodeId, candidate.iteration⟩) with
      | none => false
      | some batchStep => isTerminalStep batchStep

/-- The loop over the incoming edges, from the count of applicable edges and the live flag. -/
def judge (candidate : StepKey) (steps : StepsById) (terminalIterations : String → Option ℕ) :
    List GraphEdge → ℕ → Bool → Fate
  | [], applicable, live =>
    if applicable = 0 then .outside else if live then .queued else .skipped
  | edge :: edges, applicable, live =>
    match sourceRow edge (classifyEdge edge loops) candidate (terminalIterations edge.from) with
    | .none => judge candidate steps terminalIterations edges applicable live
    | .pending => .undecidable
    | .row key =>
      match steps (stepKeyId key) with
      | none => .undecidable
      | some sourceStep =>
        if isSettledStatus sourceStep.status then
          judge candidate steps terminalIterations edges (applicable + 1)
            (live || isLive sourceStep edge)
        else .undecidable

attribute [grind =] judge

def incomingEdges (nodeId : String) : List GraphEdge :=
  graph.edges.filter fun edge => edge.to = nodeId

def outgoingEdges (nodeId : String) : List GraphEdge :=
  graph.edges.filter fun edge => edge.from = nodeId

def decideNodeFate (candidate : StepKey) (steps : StepsById)
    (terminalIterations : String → Option ℕ) : Fate :=
  if isPastLoopEnd loops candidate steps then .outside
  else judge loops candidate steps terminalIterations (incomingEdges graph candidate.nodeId) 0 false

def batchStepOf (settled : StepKey) (steps : StepsById) : Option StepSummary :=
  if loops.any fun loop => loop.batchNodeId = settled.nodeId then steps (stepKeyId settled)
  else none

def decidesEdge (settled : StepKey) (steps : StepsById) (edge : GraphEdge) : Bool :=
  match batchStepOf loops settled steps with
  | some batchStep => batchStepDecides (classifyEdge edge loops) batchStep
  | none => true

/-- One turn of the loop over the outgoing edges; `acc.2` are the ids decided so far. -/
def decideEdge (settled : StepKey) (steps : StepsById) (terminalIterations : String → Option ℕ)
    (acc : SuccessorDecisions × List String) (edge : GraphEdge) :
    SuccessorDecisions × List String :=
  if decidesEdge loops settled steps edge then
    let target := targetKey edge (classifyEdge edge loops) settled
    let targetId := stepKeyId target
    if (steps targetId).isSome ∨ targetId ∈ acc.2 then acc
    else
      (acc.1.add target (decideNodeFate graph loops target steps terminalIterations),
        targetId :: acc.2)
  else acc

def decideSuccessors (settled : StepKey) (steps : StepsById)
    (terminalIterations : String → Option ℕ) : SuccessorDecisions :=
  ((outgoingEdges graph settled.nodeId).foldl
    (decideEdge graph loops settled steps terminalIterations) (⟨[], []⟩, [])).1

def addKey (keys : List StepKey) (key : StepKey) : List StepKey :=
  if key ∈ keys then keys else keys ++ [key]

/-- The keys an edge's target contributes: itself, what its incoming edges read, its batch step. -/
def addTargetKeys (settled : StepKey) (terminalIterations : String → Option ℕ)
    (keys : List StepKey) (edge : GraphEdge) : List StepKey :=
  let target := targetKey edge (classifyEdge edge loops) settled
  let keys := (incomingEdges graph target.nodeId).foldl
    (fun keys inEdge =>
      match sourceRow inEdge (classifyEdge inEdge loops) target
          (terminalIterations inEdge.from) with
      | .row key => addKey keys key
      | _ => keys)
    (addKey keys target)
  match loopOf loops target.nodeId with
  | some loop => addKey keys ⟨loop.batchNodeId, target.iteration⟩
  | none => keys

/-- Every step `decideSuccessors` reads. -/
def decisionKeys (settled : StepKey) (terminalIterations : String → Option ℕ) : List StepKey :=
  (outgoingEdges graph settled.nodeId).foldl
    (addTargetKeys graph loops settled terminalIterations) [settled]

end Planner

/-! ## Completion -/

/-- The steps the loops owe, and their members; `none` while one of them still runs. -/
def countLoopSteps (terminalIterations : String → Option ℕ) :
    List WorkflowLoop → ℕ → List String → Option (ℕ × List String)
  | [], expected, members => some (expected, members)
  | loop :: loops, expected, members =>
    match terminalIterations loop.batchNodeId with
    | none => none
    | some terminal =>
      countLoopSteps terminalIterations loops
        (expected + (terminal + 1 + terminal * (loop.memberIds.length - 1)))
        (loop.memberIds.foldl pushNew members)

/-- How many settled steps a finished execution owes, `none` while a loop the trigger reaches is
still running. -/
def countExpectedSettledSteps (loops : List WorkflowLoop) (reachable : List String)
    (terminalIterations : String → Option ℕ) : Option ℕ :=
  (countLoopSteps terminalIterations (loops.filter fun loop => loop.batchNodeId ∈ reachable) 0
    []).map fun (expected, members) =>
      reachable.foldl (fun expected nodeId => if nodeId ∈ members then expected else expected + 1)
        expected

/-! ## The planner on the tables it reads -/

/-- The terminal iterations the planner of `settled` loads. -/
def planTerminals (graph : WorkflowGraph) (table : StepTable) (settled : StepKey) :
    String → Option ℕ :=
  loadTerminalIterations table
    (exitSourcesInto graph (deriveLoops graph) (getSuccessorNodeIds graph settled.nodeId))

/-- The planner of `settled`: the terminal iterations and then the rows it names are loaded. -/
def planSuccessors (graph : WorkflowGraph) (settled : StepKey)
    (terminalIterations : String → Option ℕ) (table : StepTable) : SuccessorDecisions :=
  decideSuccessors graph (deriveLoops graph) settled
    (table.loadStepSummariesByKeys
      (decisionKeys graph (deriveLoops graph) settled terminalIterations))
    terminalIterations

/-! ## The planner loads every row it reads -/

def StepTable.view (table : StepTable) : StepsById := fun id =>
  (table.rows.find? fun row => stepKeyId row.toStepKey = id).map StepRecord.summary

/-- The last pass of the loop of a batch node, if it has ended. -/
def StepTable.terminalIteration (table : StepTable) (batchNodeId : String) : Option ℕ :=
  loadTerminalIterations table [batchNodeId] batchNodeId

theorem StepTable.view_apply (table : StepTable) (key : StepKey) :
    table.view (stepKeyId key) = (table.at? key).map StepRecord.summary := by
  simp [view, at?]

theorem loadTerminalIterations_apply {table : StepTable} {ids : List String} {id : String}
    (h : id ∈ ids) : loadTerminalIterations table ids id = table.terminalIteration id := by
  simp [StepTable.terminalIteration, loadTerminalIterations, StepTable.loadLatestStepSummaries, h]

theorem classifyEdge_nil_ne_exit (edge : GraphEdge) : classifyEdge edge [] ≠ .exit := by
  simp only [classifyEdge, loopOf, List.find?_nil]
  split_ifs <;> simp_all

/-- The sources looked up are those of the exit edges into the targets. -/
theorem mem_exitSourcesInto {graph : WorkflowGraph} {loops : List WorkflowLoop}
    {ids : List String} {source : String} :
    source ∈ exitSourcesInto graph loops ids ↔ ∃ edge ∈ graph.edges,
      edge.to ∈ ids ∧ classifyEdge edge loops = .exit ∧ edge.from = source := by
  unfold exitSourcesInto
  split_ifs with hl
  · subst hl
    simp [classifyEdge_nil_ne_exit]
  · have he : (fun (sources : List String) (edge : GraphEdge) =>
        if edge.to ∈ ids ∧ classifyEdge edge loops = .exit then pushNew sources edge.from
        else sources) = fun sources edge =>
        if decide (edge.to ∈ ids ∧ classifyEdge edge loops = .exit) = true then
          pushNew sources (GraphEdge.from edge) else sources := by
      funext sources edge
      simp only [decide_eq_true_eq]
    rw [he, ← List.foldl_filter, ← List.foldl_map, mem_foldl_pushNew]
    simp [and_assoc]

section Congruence

variable {graph : WorkflowGraph} {loops : List WorkflowLoop} {steps steps' : StepsById}
  {terminals terminals' : String → Option ℕ} {candidate settled : StepKey} {edge : GraphEdge}

theorem sourceRow_congr {edgeClass : EdgeClass} {target : StepKey} {terminal terminal' : Option ℕ}
    (h : edgeClass = .exit → terminal = terminal') :
    sourceRow edge edgeClass target terminal = sourceRow edge edgeClass target terminal' := by
  cases edgeClass with
  | exit => rw [h rfl]
  | _ => rfl

/-- Two views agree on what the judgement over `edges` reads. -/
theorem judge_congr {edges : List GraphEdge}
    (ht : ∀ edge ∈ edges, classifyEdge edge loops = .exit →
      terminals edge.from = terminals' edge.from)
    (hs : ∀ edge ∈ edges, ∀ key, sourceRow edge (classifyEdge edge loops) candidate
      (terminals edge.from) = .row key → steps (stepKeyId key) = steps' (stepKeyId key))
    (n : ℕ) (live : Bool) :
    judge loops candidate steps terminals edges n live =
      judge loops candidate steps' terminals' edges n live := by
  induction edges generalizing n live with
  | nil => rfl
  | cons edge edges ih =>
    have ih := fun n live => ih (fun e he => ht e (List.mem_cons_of_mem _ he))
      (fun e he => hs e (List.mem_cons_of_mem _ he)) n live
    have hsrc := @sourceRow_congr edge _ candidate _ _ (ht edge List.mem_cons_self)
    have hrow := hs edge List.mem_cons_self
    rw [judge, judge, ← hsrc]
    cases hc : sourceRow edge (classifyEdge edge loops) candidate (terminals edge.from) with
    | none => exact ih n live
    | pending => rfl
    | row key =>
      simp only [hrow key hc]
      cases hk : steps' (stepKeyId key) with
      | none => rfl
      | some sourceStep => simp only [ih]

theorem isPastLoopEnd_congr
    (hb : ∀ loop, loopOf loops candidate.nodeId = some loop →
      steps (stepKeyId ⟨loop.batchNodeId, candidate.iteration⟩) =
        steps' (stepKeyId ⟨loop.batchNodeId, candidate.iteration⟩)) :
    isPastLoopEnd loops candidate steps = isPastLoopEnd loops candidate steps' := by
  unfold isPastLoopEnd
  cases hl : loopOf loops candidate.nodeId with
  | none => rfl
  | some loop => simp only [hb loop hl]

theorem mem_addKey {keys : List StepKey} {key x : StepKey} :
    x ∈ addKey keys key ↔ x ∈ keys ∨ x = key := by
  unfold addKey
  split_ifs with h
  · exact ⟨.inl, fun hx => hx.elim (fun hx => hx) fun hx => hx ▸ h⟩
  · simp

/-- A fold whose turns only add elements. -/
theorem mem_foldl_add {α β : Type} {x : α} {Q : β → Prop} {f : List α → β → List α}
    (hf : ∀ l b, x ∈ f l b ↔ x ∈ l ∨ Q b) (l : List α) (bs : List β) :
    x ∈ bs.foldl f l ↔ x ∈ l ∨ ∃ b ∈ bs, Q b := by
  induction bs generalizing l with
  | nil => simp
  | cons b bs ih => rw [List.foldl_cons, ih, hf]; simp [or_assoc]

theorem mem_addTargetKeys {keys : List StepKey} {x : StepKey} :
    x ∈ addTargetKeys graph loops settled terminals keys edge ↔ x ∈ keys ∨
      (x = targetKey edge (classifyEdge edge loops) settled ∨
        (∃ inEdge ∈ incomingEdges graph edge.to, sourceRow inEdge (classifyEdge inEdge loops)
          (targetKey edge (classifyEdge edge loops) settled) (terminals inEdge.from) = .row x) ∨
        ∃ loop, loopOf loops edge.to = some loop ∧ x = ⟨loop.batchNodeId,
          (targetKey edge (classifyEdge edge loops) settled).iteration⟩) := by
  have hnode : (targetKey edge (classifyEdge edge loops) settled).nodeId = edge.to := by
    cases h : classifyEdge edge loops <;> rfl
  unfold addTargetKeys
  simp only [hnode]
  set target := targetKey edge (classifyEdge edge loops) settled
  have hin : ∀ (l : List StepKey) (inEdge : GraphEdge),
      x ∈ (match sourceRow inEdge (classifyEdge inEdge loops) target (terminals inEdge.from) with
        | .row key => addKey l key
        | _ => l) ↔ x ∈ l ∨
      sourceRow inEdge (classifyEdge inEdge loops) target (terminals inEdge.from) = .row x := by
    intro l inEdge
    cases sourceRow inEdge (classifyEdge inEdge loops) target (terminals inEdge.from) with
    | row key => simp [mem_addKey, eq_comm]
    | none => simp
    | pending => simp
  cases hl : loopOf loops edge.to with
  | none => simp [mem_foldl_add hin, mem_addKey, or_assoc]
  | some loop => simp [mem_foldl_add hin, mem_addKey, or_assoc]

theorem mem_decisionKeys {x : StepKey} :
    x ∈ decisionKeys graph loops settled terminals ↔ x = settled ∨
      ∃ edge ∈ outgoingEdges graph settled.nodeId,
        (x = targetKey edge (classifyEdge edge loops) settled ∨
        (∃ inEdge ∈ incomingEdges graph edge.to, sourceRow inEdge (classifyEdge inEdge loops)
          (targetKey edge (classifyEdge edge loops) settled) (terminals inEdge.from) = .row x) ∨
        ∃ loop, loopOf loops edge.to = some loop ∧ x = ⟨loop.batchNodeId,
          (targetKey edge (classifyEdge edge loops) settled).iteration⟩) := by
  unfold decisionKeys
  rw [mem_foldl_add fun l edge => mem_addTargetKeys, List.mem_singleton]

theorem targetKey_nodeId (edge : GraphEdge) (edgeClass : EdgeClass) (source : StepKey) :
    (targetKey edge edgeClass source).nodeId = edge.to := by
  cases edgeClass <;> rfl

/-- Two views that agree on the keys named judge the target of an edge the same. -/
theorem decideNodeFate_congr (he : edge ∈ outgoingEdges graph settled.nodeId)
    (ht : ∀ inEdge ∈ incomingEdges graph edge.to,
      classifyEdge inEdge loops = .exit → terminals inEdge.from = terminals' inEdge.from)
    (hs : ∀ key ∈ decisionKeys graph loops settled terminals,
      steps (stepKeyId key) = steps' (stepKeyId key)) :
    decideNodeFate graph loops (targetKey edge (classifyEdge edge loops) settled) steps terminals =
      decideNodeFate graph loops (targetKey edge (classifyEdge edge loops) settled) steps'
        terminals' := by
  have hkeys := fun key hk => hs key (mem_decisionKeys.2 hk)
  have hpast : isPastLoopEnd loops (targetKey edge (classifyEdge edge loops) settled) steps =
      isPastLoopEnd loops (targetKey edge (classifyEdge edge loops) settled) steps' := by
    refine isPastLoopEnd_congr ?_
    rw [targetKey_nodeId]
    exact fun loop hl => hkeys _ (.inr ⟨edge, he, .inr (.inr ⟨loop, hl, rfl⟩)⟩)
  unfold decideNodeFate
  rw [targetKey_nodeId, hpast, judge_congr ht]
  exact fun inEdge hin key hk => hkeys key (.inr ⟨edge, he, .inr (.inl ⟨inEdge, hin, hk⟩)⟩)

/-- Two views that agree on the keys named decide the same. -/
theorem decideSuccessors_congr
    (ht : ∀ edge ∈ outgoingEdges graph settled.nodeId, ∀ inEdge ∈ incomingEdges graph edge.to,
      classifyEdge inEdge loops = .exit → terminals inEdge.from = terminals' inEdge.from)
    (hs : ∀ key ∈ decisionKeys graph loops settled terminals,
      steps (stepKeyId key) = steps' (stepKeyId key)) :
    decideSuccessors graph loops settled steps terminals =
      decideSuccessors graph loops settled steps' terminals' := by
  have hkeys := fun key hk => hs key (mem_decisionKeys.2 hk)
  unfold decideSuccessors
  rw [List.foldl_ext _ (decideEdge graph loops settled steps' terminals') _ fun acc edge he => ?_]
  have hbatch : batchStepOf loops settled steps = batchStepOf loops settled steps' := by
    unfold batchStepOf
    rw [hkeys settled (.inl rfl)]
  have hdec : decidesEdge loops settled steps edge = decidesEdge loops settled steps' edge := by
    unfold decidesEdge
    rw [hbatch]
  have htarget := hkeys _ (.inr ⟨edge, he, .inl rfl⟩)
  have hfate := decideNodeFate_congr he (ht edge he) hs
  unfold decideEdge
  simp only [hdec, htarget, hfate]

/-- **The decision keys are a sufficient read set**: two views that agree on them decide the same,
so the rows loaded by these keys decide what the whole table does. -/
theorem decideSuccessors_of_agree (graph : WorkflowGraph) (loops : List WorkflowLoop)
    (settled : StepKey) (terminals : String → Option ℕ) :
    (∀ steps steps' : StepsById, (∀ key ∈ decisionKeys graph loops settled terminals,
        steps (stepKeyId key) = steps' (stepKeyId key)) →
      decideSuccessors graph loops settled steps terminals =
        decideSuccessors graph loops settled steps' terminals) ∧
    ∀ table : StepTable, decideSuccessors graph loops settled
        (table.loadStepSummariesByKeys (decisionKeys graph loops settled terminals)) terminals =
      decideSuccessors graph loops settled table.view terminals := by
  constructor
  · intro steps steps' hagree
    exact decideSuccessors_congr (fun _ _ _ _ _ => rfl) hagree
  · intro table
    apply decideSuccessors_congr (fun _ _ _ _ _ => rfl)
    intro key hk
    rw [StepTable.loadStepSummariesByKeys_apply hk, StepTable.view_apply]

def chainGraph : WorkflowGraph where
  nodes := [⟨"start", "Start", .trigger, none⟩, ⟨"work", "Work", .v1Node, none⟩]
  edges := [⟨"start", "work", 0, 0, false⟩]

/-- The rows once the trigger is completed, and a further row. -/
def chainSteps (further : StepKey) : StepsById := fun id =>
  if id = stepKeyId ⟨"start", 0⟩ then some ⟨⟨"start", 0⟩, 0, .completed, [true]⟩
  else if id = stepKeyId further then some ⟨further, 1, .queued, []⟩
  else none

/-- Rows of other nodes do not matter. -/
theorem decideSuccessors_of_agree_chain :
    decideSuccessors chainGraph [] ⟨"start", 0⟩ (chainSteps ⟨"left", 0⟩) (fun _ => none) =
      decideSuccessors chainGraph [] ⟨"start", 0⟩ (chainSteps ⟨"right", 0⟩) fun _ => none := by
  refine (decideSuccessors_of_agree chainGraph [] ⟨"start", 0⟩ fun _ => none).1 _ _ ?_
  intro key hk
  have hleft : stepKeyId key ≠ stepKeyId ⟨"left", 0⟩ := by
    intro he
    obtain rfl := stepKeyId_injective he
    revert hk
    decide
  have hright : stepKeyId key ≠ stepKeyId ⟨"right", 0⟩ := by
    intro he
    obtain rfl := stepKeyId_injective he
    revert hk
    decide
  simp only [chainSteps, if_neg hleft, if_neg hright]

end Congruence

/-- The planner loads the last pass of every loop its candidates' exit edges leave. -/
theorem planTerminals_apply {graph : WorkflowGraph} {settled : StepKey} {table : StepTable}
    {edge inEdge : GraphEdge} (he : edge ∈ outgoingEdges graph settled.nodeId)
    (hin : inEdge ∈ incomingEdges graph edge.to)
    (hx : classifyEdge inEdge (deriveLoops graph) = .exit) :
    planTerminals graph table settled inEdge.from = table.terminalIteration inEdge.from := by
  obtain ⟨he, hf⟩ := List.mem_filter.mp he
  obtain ⟨hin, ht⟩ := List.mem_filter.mp hin
  refine loadTerminalIterations_apply (mem_exitSourcesInto.mpr ⟨inEdge, hin, ?_, hx, rfl⟩)
  rw [mem_getSuccessorNodeIds]
  exact ⟨edge, he, by simpa using hf, (by simpa using ht : inEdge.to = edge.to).symm⟩

/-- **The planner loads every row it reads**: its decisions are those from the whole tables. -/
theorem planSuccessors_eq (graph : WorkflowGraph) (settled : StepKey) (table table' : StepTable) :
    planSuccessors graph settled (planTerminals graph table settled) table' =
      decideSuccessors graph (deriveLoops graph) settled table'.view table.terminalIteration := by
  refine decideSuccessors_congr (fun edge he inEdge hin hx => planTerminals_apply he hin hx)
    fun key hk => ?_
  rw [StepTable.loadStepSummariesByKeys_apply hk, StepTable.view_apply]

/-! ## The decisions are the fates of the considered steps -/

/-- The planner of `settled` considers the step `key`. -/
def Considers (graph : WorkflowGraph) (loops : List WorkflowLoop) (settled : StepKey)
    (steps : StepsById) (key : StepKey) : Prop :=
  ∃ edge ∈ outgoingEdges graph settled.nodeId, decidesEdge loops settled steps edge = true ∧
    targetKey edge (classifyEdge edge loops) settled = key

section Decisions

variable {graph : WorkflowGraph} {loops : List WorkflowLoop} {steps : StepsById}
  {terminals : String → Option ℕ} {settled key : StepKey} {acc : SuccessorDecisions × List String}
  {decisions : SuccessorDecisions}

/-- What the loop over the outgoing edges has decided when it considered the steps in `P`. -/
structure DecidedSoFar (graph : WorkflowGraph) (loops : List WorkflowLoop) (steps : StepsById)
    (terminals : String → Option ℕ) (P : StepKey → Prop) (acc : SuccessorDecisions × List String) :
    Prop where
  queue : ∀ key, key ∈ acc.1.toQueue ↔ P key ∧ steps (stepKeyId key) = none ∧
    decideNodeFate graph loops key steps terminals = .queued
  skip : ∀ key, key ∈ acc.1.toSkip ↔ P key ∧ steps (stepKeyId key) = none ∧
    decideNodeFate graph loops key steps terminals = .skipped
  decided : ∀ key, stepKeyId key ∈ acc.2 ↔ P key ∧ steps (stepKeyId key) = none

theorem DecidedSoFar.congr {P Q : StepKey → Prop}
    (h : DecidedSoFar graph loops steps terminals P acc)
    (hPQ : ∀ key, steps (stepKeyId key) = none → (P key ↔ Q key)) :
    DecidedSoFar graph loops steps terminals Q acc where
  queue key := by
    rw [h.queue]
    exact ⟨fun ⟨hp, hs, hf⟩ => ⟨(hPQ key hs).mp hp, hs, hf⟩,
      fun ⟨hq, hs, hf⟩ => ⟨(hPQ key hs).mpr hq, hs, hf⟩⟩
  skip key := by
    rw [h.skip]
    exact ⟨fun ⟨hp, hs, hf⟩ => ⟨(hPQ key hs).mp hp, hs, hf⟩,
      fun ⟨hq, hs, hf⟩ => ⟨(hPQ key hs).mpr hq, hs, hf⟩⟩
  decided key := by
    rw [h.decided]
    exact ⟨fun ⟨hp, hs⟩ => ⟨(hPQ key hs).mp hp, hs⟩, fun ⟨hq, hs⟩ => ⟨(hPQ key hs).mpr hq, hs⟩⟩

theorem SuccessorDecisions.mem_add_toQueue {target : StepKey} {fate : Fate} :
    key ∈ (decisions.add target fate).toQueue ↔
      key ∈ decisions.toQueue ∨ key = target ∧ fate = .queued := by
  cases fate <;> simp [add]

theorem SuccessorDecisions.mem_add_toSkip {target : StepKey} {fate : Fate} :
    key ∈ (decisions.add target fate).toSkip ↔
      key ∈ decisions.toSkip ∨ key = target ∧ fate = .skipped := by
  cases fate <;> simp [add]

theorem DecidedSoFar.decideEdge {P : StepKey → Prop}
    (h : DecidedSoFar graph loops steps terminals P acc) (edge : GraphEdge) :
    DecidedSoFar graph loops steps terminals
      (fun key => P key ∨ (decidesEdge loops settled steps edge = true ∧
        targetKey edge (classifyEdge edge loops) settled = key))
      (decideEdge graph loops settled steps terminals acc edge) := by
  unfold Engine.decideEdge
  split_ifs with hd
  · simp only
    set target := targetKey edge (classifyEdge edge loops) settled with htarget
    split_ifs with hskip
    · -- a step that exists or was decided before changes nothing
      refine h.congr fun key hs => ⟨.inl, fun hk => hk.elim (fun hp => hp) ?_⟩
      rintro ⟨-, rfl⟩
      rcases hskip with hsome | hmem
      · simp [hs] at hsome
      · exact ((h.decided _).mp hmem).1
    · obtain ⟨hnone, hnew⟩ := not_or.mp hskip
      have hnone : steps (stepKeyId target) = none := by simpa using hnone
      have hor : ∀ key, ((P key ∨ target = key) ∧ steps (stepKeyId key) = none) ↔
          (P key ∧ steps (stepKeyId key) = none) ∨ key = target := by
        intro key
        constructor
        · rintro ⟨hp | rfl, hs⟩
          · exact .inl ⟨hp, hs⟩
          · exact .inr rfl
        · rintro (⟨hp, hs⟩ | rfl)
          · exact ⟨.inl hp, hs⟩
          · exact ⟨.inr rfl, hnone⟩
      have hfate : ∀ key fate, ((P key ∨ target = key) ∧ steps (stepKeyId key) = none ∧
          decideNodeFate graph loops key steps terminals = fate) ↔
          (P key ∧ steps (stepKeyId key) = none ∧
            decideNodeFate graph loops key steps terminals = fate) ∨
          key = target ∧ decideNodeFate graph loops target steps terminals = fate := by
        intro key fate
        rw [← and_assoc, hor, or_and_right, and_assoc]
        exact or_congr_right ⟨fun ⟨hk, hf⟩ => ⟨hk, hk ▸ hf⟩, fun ⟨hk, hf⟩ => ⟨hk, hk ▸ hf⟩⟩
      simp only [hd, true_and]
      refine ⟨fun key => ?_, fun key => ?_, fun key => ?_⟩
      · rw [SuccessorDecisions.mem_add_toQueue, h.queue, hfate]
      · rw [SuccessorDecisions.mem_add_toSkip, h.skip, hfate]
      · rw [List.mem_cons, stepKeyId_inj, h.decided, hor, or_comm]
  · exact h.congr fun key _ => by simp [hd]

theorem decidedSoFar_foldl {P : StepKey → Prop} (h : DecidedSoFar graph loops steps terminals P acc)
    (edges : List GraphEdge) :
    DecidedSoFar graph loops steps terminals
      (fun key => P key ∨ ∃ edge ∈ edges, decidesEdge loops settled steps edge = true ∧
        targetKey edge (classifyEdge edge loops) settled = key)
      (edges.foldl (decideEdge graph loops settled steps terminals) acc) := by
  induction edges generalizing P acc with
  | nil => exact h.congr fun key _ => by simp
  | cons edge edges ih => exact (ih (h.decideEdge edge)).congr fun key _ => by simp [or_assoc]

theorem decidedSoFar_decideSuccessors :
    ∃ ids, DecidedSoFar graph loops steps terminals (Considers graph loops settled steps)
      (decideSuccessors graph loops settled steps terminals, ids) := by
  have h₀ : DecidedSoFar graph loops steps terminals (fun _ => False) (⟨[], []⟩, []) :=
    ⟨by simp, by simp, by simp⟩
  refine ⟨_, (decidedSoFar_foldl h₀ (outgoingEdges graph settled.nodeId)).congr fun key _ => ?_⟩
  simp [Considers]

/-- **The steps to queue** are those considered and absent whose fate is to run. -/
theorem mem_toQueue : key ∈ (decideSuccessors graph loops settled steps terminals).toQueue ↔
    Considers graph loops settled steps key ∧ steps (stepKeyId key) = none ∧
      decideNodeFate graph loops key steps terminals = .queued := by
  obtain ⟨ids, h⟩ := @decidedSoFar_decideSuccessors graph loops steps terminals settled
  exact h.queue key

/-- **The steps to skip** are those considered and absent whose inputs are all dead. -/
theorem mem_toSkip : key ∈ (decideSuccessors graph loops settled steps terminals).toSkip ↔
    Considers graph loops settled steps key ∧ steps (stepKeyId key) = none ∧
      decideNodeFate graph loops key steps terminals = .skipped := by
  obtain ⟨ids, h⟩ := @decidedSoFar_decideSuccessors graph loops steps terminals settled
  exact h.skip key

end Decisions

/-! ## The judgement over the incoming edges -/

/-- The source says something: it does not apply, or its step has settled. -/
def SourceRow.Resolved (steps : StepsById) : SourceRow → Prop
  | .none => True
  | .pending => False
  | .row key => ∃ step, steps (stepKeyId key) = some step ∧ isSettledStatus step.status = true

@[simp] theorem SourceRow.resolved_none (steps : StepsById) : SourceRow.none.Resolved steps := trivial

@[simp] theorem SourceRow.not_resolved_pending (steps : StepsById) :
    ¬ SourceRow.pending.Resolved steps := fun h => h

theorem SourceRow.resolved_row {steps : StepsById} {key : StepKey} :
    (SourceRow.row key).Resolved steps ↔
      ∃ step, steps (stepKeyId key) = some step ∧ isSettledStatus step.status = true := Iff.rfl

/-- What later views keep of the settled steps and the ended loops of earlier ones. -/
structure ViewExtends (graph : WorkflowGraph) (loops : List WorkflowLoop)
    (steps steps' : StepsById) (terminals terminals' : String → Option ℕ) : Prop where
  step : ∀ id step, steps id = some step → isSettledStatus step.status = true →
    steps' id = some step
  terminal : ∀ edge ∈ graph.edges, classifyEdge edge loops = .exit →
    ∀ t, terminals edge.from = some t → terminals' edge.from = some t

section Judge

variable {graph : WorkflowGraph} {loops : List WorkflowLoop} {steps steps' : StepsById}
  {terminals terminals' : String → Option ℕ} {candidate : StepKey} {edge : GraphEdge}
  {edges : List GraphEdge} {live : Bool}

theorem sourceRow_stable (h : ViewExtends graph loops steps steps' terminals terminals')
    (he : edge ∈ graph.edges)
    (hr : (sourceRow edge (classifyEdge edge loops) candidate
      (terminals edge.from)).Resolved steps) :
    sourceRow edge (classifyEdge edge loops) candidate (terminals' edge.from) =
      sourceRow edge (classifyEdge edge loops) candidate (terminals edge.from) := by
  have hterm := h.terminal edge he
  cases hc : classifyEdge edge loops with
  | exit =>
    simp only [hc, sourceRow] at hr ⊢
    split_ifs at hr ⊢ with hi
    · rfl
    · cases ht : terminals edge.from with
      | none => simp [ht] at hr
      | some t => rw [hterm hc t ht]
  | _ => rfl

/-- The judgement is open exactly while some source says nothing. -/
theorem judge_eq_undecidable {n : ℕ} :
    judge loops candidate steps terminals edges n live = .undecidable ↔
      ∃ edge ∈ edges, ¬ (sourceRow edge (classifyEdge edge loops) candidate
        (terminals edge.from)).Resolved steps := by
  induction edges generalizing n live with
  | nil => simp only [judge]; split_ifs <;> simp
  | cons edge edges ih =>
    rw [judge]
    simp only [List.mem_cons, exists_eq_or_imp]
    cases sourceRow edge (classifyEdge edge loops) candidate (terminals edge.from) with
    | none => simp [ih]
    | pending => simp
    | row key =>
      simp only [SourceRow.resolved_row]
      cases hk : steps (stepKeyId key) with
      | none => simp
      | some step =>
        by_cases hs : isSettledStatus step.status = true
        · simp [hs, ih]
        · simp [hs]

/-- With every source resolved, the step is outside exactly if no edge applies. -/
theorem judge_eq_outside {n : ℕ}
    (h : judge loops candidate steps terminals edges n live ≠ .undecidable) :
    judge loops candidate steps terminals edges n live = .outside ↔ n = 0 ∧ ∀ edge ∈ edges,
      ∀ key, sourceRow edge (classifyEdge edge loops) candidate (terminals edge.from) ≠ .row key := by
  induction edges generalizing n live with
  | nil => simp only [judge]; split_ifs <;> simp_all
  | cons edge edges ih =>
    rw [judge] at h ⊢
    simp only [List.mem_cons, forall_eq_or_imp]
    cases hsrc : sourceRow edge (classifyEdge edge loops) candidate (terminals edge.from) with
    | none =>
      simp only [hsrc] at h
      simp [ih h]
    | pending => simp [hsrc] at h
    | row key =>
      simp only [hsrc] at h
      simp only
      cases hk : steps (stepKeyId key) with
      | none => simp [hk] at h
      | some step =>
        by_cases hs : isSettledStatus step.status = true
        · simp only [hk, hs, if_true] at h ⊢
          simp [ih h]
        · simp [hk, hs] at h

/-- **A fate once decided does not change.** -/
theorem judge_stable {n : ℕ} (hext : ViewExtends graph loops steps steps' terminals terminals')
    (hin : ∀ edge ∈ edges, edge ∈ graph.edges)
    (h : judge loops candidate steps terminals edges n live ≠ .undecidable) :
    judge loops candidate steps' terminals' edges n live =
      judge loops candidate steps terminals edges n live := by
  induction edges generalizing n live with
  | nil => rfl
  | cons edge edges ih =>
    have hr : (sourceRow edge (classifyEdge edge loops) candidate
        (terminals edge.from)).Resolved steps := by
      by_contra hr
      exact h (judge_eq_undecidable.2 ⟨edge, List.mem_cons_self, hr⟩)
    have ih := fun {n live} => @ih n live fun e he => hin e (List.mem_cons_of_mem _ he)
    rw [judge] at h
    rw [judge, judge, sourceRow_stable hext (hin edge List.mem_cons_self) hr]
    cases hsrc : sourceRow edge (classifyEdge edge loops) candidate (terminals edge.from) with
    | none =>
      simp only [hsrc] at h
      exact ih h
    | pending => rfl
    | row key =>
      rw [hsrc] at hr
      obtain ⟨step, hk, hs⟩ := hr
      simp only [hsrc, hk, hs, if_true] at h
      simp only [hk, hext.step _ _ hk hs, hs, if_true]
      exact ih h

end Judge

end N8n.Engine
