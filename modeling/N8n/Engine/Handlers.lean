import N8n.Engine.Completion
import N8n.Foundations.Transition

/-!
# The handlers of an execution

The three message handlers as processes over the store, and the system they form for one execution.
A handler advances by one store operation or one publish at a time. Every message that was ever
published may be delivered at any time and any number of times, a handler may be interrupted at any
point, and a message is acknowledged when a handler has run to its end for it.

## Main definitions

* `Store`: the status of the execution and its step rows
* `Message`, `Pc`: the messages and the points a handler may be at
* `advance`: what a handler does next
* `State`, `State.next`, `engine`: the system
* `State.Quiescent`: no message is in flight and no handler runs

## Main results

* `next_cases`: what one step of the system does to the messages and the processes
* `reachable_of_follow`: a list of events that can be followed leads to a reachable state
-/

namespace N8n.Engine

inductive ExecutionStatus
  | queued
  | running
  | completed
  | failed
  | cancelled
  deriving DecidableEq

structure ExecutionRecord where
  graph : WorkflowGraph
  triggerOutputs : Option StepSlots
  /-- The host supplies an executor for `v1-node` steps. -/
  v1StepExecutor : Bool

structure Store where
  status : ExecutionStatus
  steps : StepTable

namespace Store

def transitionStatus (store : Store) («from» «to» : ExecutionStatus) : Store × Bool :=
  if store.status = «from» then ({ store with status := «to» }, true) else (store, false)

def finishExecution (store : Store) (status : ExecutionStatus) : Store × Bool :=
  store.transitionStatus .running status

end Store

inductive Message
  | executionEnqueued
  | stepReady (stepId : ℕ)
  | stepSettled (stepId : ℕ)
  deriving DecidableEq

/-- The point a handler is at, with what it has read. -/
inductive Pc
  /-- `ExecutionStartHandler` -/
  | claimExecution
  | createTrigger
  /-- `StepSettledHandler` -/
  | loadSettledStep (stepId : ℕ)
  | loadSettledExecution (step : StepRecord)
  | failExecution
  | cancelQueued
  | checkFailed (step : StepRecord)
  | loadTerminals (step : StepRecord)
  | loadSteps (step : StepRecord) (terminalIterations : String → Option ℕ)
  | createSuccessors (decisions : SuccessorDecisions)
  | countExpected
  | countSettled (expected : ℕ)
  | checkOutcome
  | recordOutcome (failed : Bool)
  /-- `StepReadyHandler` -/
  | claimStep (stepId : ℕ)
  | loadReadyExecution (step : StepRecord)
  | runStep (step : StepRecord)
  | recordStep (stepId : ℕ) (outcome : Except StepError StepSlots)
  /-- The messages still to publish, and whether to see if the execution is done after that. -/
  | announce (messages : List Message) (finish : Bool)

inductive Next
  | continue (pc : Pc)
  | done
  | throw

structure Result where
  store : Store
  published : List Message
  next : Next

section Advance

variable (execution : ExecutionRecord)

def canRun (node : GraphNode) : Bool :=
  node.type = .batch || (node.type = .v1Node && execution.v1StepExecutor)

def announcement (queuedKeys : List String) (row : StepRecord) : Message :=
  if stepKeyId row.toStepKey ∈ queuedKeys then .stepReady row.id else .stepSettled row.id

def SuccessorDecisions.records (decisions : SuccessorDecisions) : List NewStepRecord :=
  decisions.toQueue.map (⟨·, .queued⟩) ++ decisions.toSkip.map (⟨·, .skipped⟩)

/-- The terminal iterations the completion check loads. -/
def finishTerminals (trigger : GraphNode) (table : StepTable) : String → Option ℕ :=
  loadTerminalIterations table
    (((deriveLoops execution.graph).filter fun loop =>
      loop.batchNodeId ∈ reachableNodeIds execution.graph trigger).map WorkflowLoop.batchNodeId)

/-- One operation of a handler. `outcome` is how the step turns out if this is where it runs. -/
def advance (outcome : Except StepError StepSlots) (store : Store) : Pc → Result
  | .claimExecution =>
    let claim := store.transitionStatus .queued .running
    ⟨claim.1, [], if claim.2 then .continue .createTrigger else .done⟩
  | .createTrigger =>
    match findTriggerNode execution.graph with
    | none => ⟨store, [], .throw⟩
    | some trigger =>
      let create := store.steps.createSteps
        [⟨⟨trigger.id, 0⟩, .completed (execution.triggerOutputs.getD [])⟩]
      ⟨{ store with steps := create.1 }, [],
        match create.2 with
        | [] => .throw
        | row :: _ => .continue (.announce [.stepSettled row.id] false)⟩
  | .loadSettledStep stepId =>
    ⟨store, [],
      match store.steps.loadStep stepId with
      | none => .throw
      | some step => .continue (.loadSettledExecution step)⟩
  | .loadSettledExecution step =>
    ⟨store, [],
      match execution.graph.nodes.find? fun node => node.id = step.nodeId with
      | none => .throw
      | some _ =>
        if step.status = .failed then .continue .failExecution
        else if store.status ≠ .running then .done
        else if step.status = .completed ∨ step.status = .skipped then .continue (.checkFailed step)
        else .continue .countExpected⟩
  | .failExecution => ⟨(store.finishExecution .failed).1, [], .continue .cancelQueued⟩
  | .cancelQueued => ⟨{ store with steps := store.steps.cancelQueuedSteps }, [], .done⟩
  | .checkFailed step =>
    ⟨store, [],
      if store.steps.hasFailedSteps then .continue .failExecution
      else .continue (.loadTerminals step)⟩
  | .loadTerminals step =>
    ⟨store, [],
      .continue (.loadSteps step (planTerminals execution.graph store.steps step.toStepKey))⟩
  | .loadSteps step terminalIterations =>
    let decisions :=
      planSuccessors execution.graph step.toStepKey terminalIterations store.steps
    ⟨store, [],
      if decisions.toQueue = [] ∧ decisions.toSkip = [] then .continue .countExpected
      else .continue (.createSuccessors decisions)⟩
  | .createSuccessors decisions =>
    let create := store.steps.createSteps decisions.records
    let queuedKeys := decisions.toQueue.map stepKeyId
    ⟨{ store with steps := create.1 }, [],
      .continue (.announce (create.2.map (announcement queuedKeys))
        (create.2.all fun row => stepKeyId row.toStepKey ∉ queuedKeys))⟩
  | .countExpected =>
    ⟨store, [],
      match findTriggerNode execution.graph with
      | none => .throw
      | some trigger =>
        match countExpectedSettledSteps (deriveLoops execution.graph)
            (reachableNodeIds execution.graph trigger)
            (finishTerminals execution trigger store.steps) with
        | none => .done
        | some expected => .continue (.countSettled expected)⟩
  | .countSettled expected =>
    ⟨store, [],
      if store.steps.countSettledSteps < expected then .done else .continue .checkOutcome⟩
  | .checkOutcome => ⟨store, [], .continue (.recordOutcome store.steps.hasFailedSteps)⟩
  | .recordOutcome failed =>
    ⟨(store.finishExecution (if failed then .failed else .completed)).1, [], .done⟩
  | .claimStep stepId =>
    let claim := store.steps.claimStep stepId
    ⟨{ store with steps := claim.1 }, [],
      match claim.2 with
      | none => .done
      | some step => .continue (.loadReadyExecution step)⟩
  | .loadReadyExecution step =>
    ⟨store, [],
      match execution.graph.nodes.find? fun node => node.id = step.nodeId with
      | none => .throw
      | some node =>
        if canRun execution node = false then .throw
        else if store.status ≠ .running then .done
        else .continue (.runStep step)⟩
  | .runStep step => ⟨store, [], .continue (.recordStep step.id outcome)⟩
  | .recordStep stepId outcome =>
    let record := match outcome with
      | .ok outputs => store.steps.completeStep stepId outputs
      | .error error => store.steps.failStep stepId error
    ⟨{ store with steps := record.1 }, [],
      if record.2 then .continue (.announce [.stepSettled stepId] false) else .done⟩
  | .announce [] finish => ⟨store, [], if finish then .continue .countExpected else .done⟩
  | .announce (message :: messages) finish =>
    ⟨store, [message], .continue (.announce messages finish)⟩

attribute [grind =] advance

end Advance

/-! ## The system -/

def Message.handler : Message → Pc
  | .executionEnqueued => .claimExecution
  | .stepReady stepId => .claimStep stepId
  | .stepSettled stepId => .loadSettledStep stepId

structure Process where
  message : Message
  pc : Pc

structure State where
  store : Store
  /-- Every message that was ever published. -/
  sent : List Message
  /-- The messages some handler has run to its end for. -/
  acked : List Message
  processes : List Process
  /-- Some handler threw or was interrupted. -/
  threw : Bool

inductive Event
  | deliver (message : Message)
  | advance (process : ℕ) (outcome : Except StepError StepSlots)
  | crash (process : ℕ)

namespace State

def initial : State := ⟨⟨.queued, .empty⟩, [.executionEnqueued], [], [], false⟩

/-- The state after the process at index `i` moved. -/
def resume (s : State) (i : ℕ) (message : Message) (result : Result) : State where
  store := result.store
  sent := s.sent ++ result.published
  acked := match result.next with
    | .done => message :: s.acked
    | _ => s.acked
  processes := match result.next with
    | .continue pc => s.processes.set i ⟨message, pc⟩
    | _ => s.processes.eraseIdx i
  threw := match result.next with
    | .throw => true
    | _ => s.threw

/-- One step of the system, `none` where the event cannot happen. -/
def next (execution : ExecutionRecord) (s : State) : Event → Option State
  | .deliver message =>
    if message ∈ s.sent then
      some { s with processes := s.processes ++ [⟨message, message.handler⟩] }
    else none
  | .advance i outcome =>
    s.processes[i]?.map fun p =>
      s.resume i p.message (Engine.advance execution outcome s.store p.pc)
  | .crash i =>
    s.processes[i]?.map fun _ => { s with processes := s.processes.eraseIdx i, threw := true }

/-- No message is in flight: every published message is acknowledged and no handler runs. -/
def Quiescent (s : State) : Prop := (∀ message ∈ s.sent, message ∈ s.acked) ∧ s.processes = []

end State

def engine (execution : ExecutionRecord) : Transition.System State Event where
  init s := s = .initial
  step s e t := s.next execution e = some t

def State.follow (execution : ExecutionRecord) : List Event → State → Option State
  | [], s => some s
  | e :: es, s => (s.next execution e).bind (follow execution es)

theorem later_of_follow {execution : ExecutionRecord} {es : List Event} {s t : State}
    (h : s.follow execution es = some t) : (engine execution).Later s t := by
  induction es generalizing s with
  | nil =>
    obtain rfl := Option.some.inj h
    exact .refl s
  | cons e es ih =>
    obtain ⟨u, hu, ht⟩ := Option.bind_eq_some_iff.mp h
    exact (Transition.System.Later.of_step hu).trans (ih ht)

/-- **A list of events that can be followed leads to a reachable state.** -/
theorem reachable_of_follow {execution : ExecutionRecord} {es : List Event} {t : State}
    (h : State.initial.follow execution es = some t) : (engine execution).Reachable t :=
  (Transition.System.Reachable.of_init rfl).later (later_of_follow h)

/-! ## A run of two steps -/

/-- A trigger that hands one output to one step. -/
def linearExecution : ExecutionRecord where
  graph := ⟨[⟨"start", "Start", .trigger, none⟩, ⟨"work", "Work", .v1Node, none⟩],
    [⟨"start", "work", 0, 0, false⟩]⟩
  triggerOutputs := some [.array []]
  v1StepExecutor := true

/-- Every message is delivered once, when the handler before it is through. -/
def linearRun : List Event :=
  let turns n := List.replicate n (Event.advance 0 (.ok [.array []]))
  .deliver .executionEnqueued :: turns 4 ++ .deliver (.stepSettled 0) :: turns 8 ++
    .deliver (.stepReady 1) :: turns 6 ++ .deliver (.stepSettled 1) :: turns 9

def linearEnd : State := (State.initial.follow linearExecution linearRun).get rfl

theorem reachable_linearEnd : (engine linearExecution).Reachable linearEnd :=
  reachable_of_follow (Option.some_get _).symm

/-! ## What one step does to the processes -/

section Steps

variable {execution : ExecutionRecord} {s t : State}

theorem mem_set_of_ne {α : Type} {l : List α} {i : ℕ} {p q a : α} (hp : l[i]? = some p)
    (hq : q ∈ l) (hne : q ≠ p) : q ∈ l.set i a := by
  obtain ⟨j, hj⟩ := List.mem_iff_getElem?.mp hq
  refine List.mem_iff_getElem?.mpr ⟨j, ?_⟩
  rw [List.getElem?_set_ne, hj]
  rintro rfl
  exact hne (Option.some.inj (hj.symm.trans hp))

theorem mem_eraseIdx_of_ne {α : Type} {l : List α} {i : ℕ} {p q : α} (hp : l[i]? = some p)
    (hq : q ∈ l) (hne : q ≠ p) : q ∈ l.eraseIdx i := by
  obtain ⟨j, hj⟩ := List.mem_iff_getElem?.mp hq
  refine List.mem_eraseIdx_iff_getElem?.mpr ⟨j, ?_, hj⟩
  rintro rfl
  exact hne (Option.some.inj (hj.symm.trans hp))

/-- The step in which a process moves: `result` is what it did. -/
structure Moved (s t : State) (p : Process) (result : Result) : Prop where
  mem : p ∈ s.processes
  store : t.store = result.store
  sent : t.sent = s.sent ++ result.published
  acked : ∀ m, m ∈ t.acked ↔ m ∈ s.acked ∨ (result.next = .done ∧ m = p.message)
  /-- The processes after the step are old ones and the moved one. -/
  after : ∀ q ∈ t.processes, q ∈ s.processes ∨
    ∃ pc, result.next = .continue pc ∧ q = ⟨p.message, pc⟩
  moved : ∀ pc, result.next = .continue pc → ⟨p.message, pc⟩ ∈ t.processes
  before : ∀ q ∈ s.processes, q = p ∨ q ∈ t.processes
  threw : t.threw = true ↔ s.threw = true ∨ result.next = .throw

theorem moved_resume {i : ℕ} {p : Process} (hp : s.processes[i]? = some p) (result : Result) :
    Moved s (s.resume i p.message result) p result := by
  have hi := (List.getElem?_eq_some_iff.mp hp).1
  refine ⟨List.mem_of_getElem? hp, rfl, rfl, fun m => ?_, fun q hq => ?_, fun pc hn => ?_,
    fun q hq => ?_, ?_⟩
  · cases hn : result.next <;> simp [State.resume, hn, or_comm]
  · cases hn : result.next with
    | «continue» pc =>
      simp only [State.resume, hn] at hq
      rcases List.mem_or_eq_of_mem_set hq with hq | hq
      · exact .inl hq
      · exact .inr ⟨pc, rfl, hq⟩
    | done =>
      simp only [State.resume, hn] at hq
      exact .inl (List.mem_of_mem_eraseIdx hq)
    | throw =>
      simp only [State.resume, hn] at hq
      exact .inl (List.mem_of_mem_eraseIdx hq)
  · simp only [State.resume, hn]
    exact List.mem_set hi _
  · by_cases hq' : q = p
    · exact .inl hq'
    · refine .inr ?_
      cases hn : result.next with
      | «continue» pc =>
        simp only [State.resume, hn]
        exact mem_set_of_ne hp hq hq'
      | done =>
        simp only [State.resume, hn]
        exact mem_eraseIdx_of_ne hp hq hq'
      | throw =>
        simp only [State.resume, hn]
        exact mem_eraseIdx_of_ne hp hq hq'
  · cases hn : result.next <;> simp [State.resume, hn]

/-- **What one step does**: a message is delivered, a process moves, or one is interrupted. -/
theorem next_cases {e : Event} (h : s.next execution e = some t) :
    (∃ m ∈ s.sent, t = { s with processes := s.processes ++ [⟨m, m.handler⟩] }) ∨
    (∃ p outcome, Moved s t p (advance execution outcome s.store p.pc)) ∨
    (t.threw = true ∧ t.store = s.store ∧ t.sent = s.sent ∧ t.acked = s.acked ∧
      ∀ q ∈ t.processes, q ∈ s.processes) := by
  cases e with
  | deliver m =>
    simp only [State.next] at h
    split_ifs at h with hm
    exact .inl ⟨m, hm, (Option.some.inj h).symm⟩
  | advance i outcome =>
    obtain ⟨p, hp, rfl⟩ := Option.map_eq_some_iff.mp h
    exact .inr (.inl ⟨p, outcome, moved_resume hp _⟩)
  | crash i =>
    obtain ⟨p, hp, rfl⟩ := Option.map_eq_some_iff.mp h
    exact .inr (.inr ⟨rfl, rfl, rfl, rfl, fun q hq => List.mem_of_mem_eraseIdx hq⟩)

end Steps

end N8n.Engine
