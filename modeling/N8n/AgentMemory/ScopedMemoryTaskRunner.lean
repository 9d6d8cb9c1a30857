import N8n.Foundations.OrderedMap
import N8n.Foundations.Transition

/-!
# Memory tasks of an agent, one at a time in each scope

A runner queues the tasks of a scope behind each other. Where there is a lock store, a task first
acquires a lock, renews it while it runs, and releases it when it ends. A renewal that is on its way
when the task ends is not waited for: a lock that it still brings is released when it arrives.

## Main definitions

* `Task`, `Stage`, `Renewal`: a scheduled task, and how far it is
* `Task.act`: a step of one task
* `Runner`, `Runner.next`: the tasks of a runner and its queues
* `runner`: runners as a transition system
-/

namespace N8n.AgentMemory

variable {V E : Type}

/-! ## Tasks -/

inductive ObservationLogTaskKind
  | observer | reflector
deriving DecidableEq, Repr

inductive ScopedMemoryTaskResult (V E : Type)
  | completed (value : V)
  /-- The lock is held by somebody else. -/
  | skipped
  | failed (error : E)
deriving DecidableEq, Repr

inductive CapturedError (E : Type)
  | thrown (error : E)
  /-- `Observation log task lock renewal lost ownership` -/
  | lostOwnership
deriving DecidableEq, Repr

/-- What the lock store answers to an acquisition. -/
inductive Acquired (E : Type)
  | granted
  | refused
  | failed (error : E)
deriving DecidableEq, Repr

/-- How far a task is. A call of the lock store is first executed and then answered. -/
inductive Stage (V E : Type)
  /-- It waits for the task before it. -/
  | queued
  | acquiring (answer : Option (Acquired E))
  | running (locked : Bool)
  | releasing (result : ScopedMemoryTaskResult V E) (answer : Option (Option E))
  /-- `runTask` has ended. -/
  | finished (result : ScopedMemoryTaskResult V E)
  /-- `done` is resolved. -/
  | resolved (result : ScopedMemoryTaskResult V E)
  /-- The entry of the task is out of the queue. -/
  | unlinked (result : ScopedMemoryTaskResult V E)
deriving DecidableEq, Repr

structure Renewal (E : Type) where
  stopped : Bool
  /-- The timer of the next renewal is armed. -/
  timer : Bool
  /-- A renewal on its way, with its answer. -/
  call : Option (Option (Acquired E))
deriving DecidableEq, Repr

structure Task (V E : Type) where
  observationScopeId : String
  taskKind : ObservationLogTaskKind
  /-- The task in the queue before it. -/
  previous : Option ℕ
  stage : Stage V E
  renewal : Option (Renewal E)
  /-- The releases on their way of locks that have arrived late. -/
  lateReleases : ℕ
  /-- The store has granted a lock, and no release was attempted since. -/
  owed : Bool
deriving DecidableEq, Repr

inductive TaskEvent (V E : Type)
  | queued
  | started
  | completed (value : V)
  | skipped
  | failed (error : E)
deriving DecidableEq, Repr

inductive Action (V E : Type)
  /-- The task before it is out of the queue. -/
  | start
  | storeAcquires (answer : Acquired E)
  | acquired
  /-- The task itself completes or fails. -/
  | settles (outcome : Except E V)
  | timerFires
  | storeRenews (answer : Acquired E)
  | renewed
  | storeReleases (error : Option E)
  | released
  | storeReleasesLate (error : Option E)
  | resolves
  | unlinks

/-- What a step of a task does to the runner. -/
structure Output (V E : Type) where
  errors : List (CapturedError E)
  events : List (TaskEvent V E)
  /-- The task is not in flight any more. -/
  finished : Bool

namespace Task

variable (task : Task V E)

/-- The end of `runTask`: the renewal is stopped, and a lock is released. -/
def finish (locked : Bool) (result : ScopedMemoryTaskResult V E) : Task V E :=
  { task with
    stage := if locked then .releasing result none else .finished result
    renewal := task.renewal.map fun renewal => { renewal with stopped := true, timer := false } }

def renewed (renewal : Renewal E) (answer : Acquired E) : Task V E × List (CapturedError E) :=
  match answer, renewal.stopped with
  | .granted, true =>
    ({ task with
      renewal := some { renewal with call := none }
      lateReleases := task.lateReleases + 1 }, [])
  | .refused, true => ({ task with renewal := some { renewal with call := none } }, [])
  | .granted, false =>
    ({ task with renewal := some { renewal with call := none, timer := true } }, [])
  | .refused, false =>
    ({ task with renewal := some { renewal with call := none, stopped := true } },
      [.lostOwnership])
  | .failed error, stopped =>
    ({ task with renewal := some { renewal with call := none, timer := !stopped } },
      [.thrown error])

/-- A step of a task. Without a lock store it runs at once. -/
def act (lockStore : Bool) : Action V E → Option (Task V E × Output V E)
  | .start =>
    match task.stage with
    | .queued =>
      some ({ task with stage := if lockStore then .acquiring none else .running false },
        ⟨[], [.started], false⟩)
    | _ => none
  | .storeAcquires answer =>
    match task.stage with
    | .acquiring none =>
      some ({ task with
        stage := .acquiring (some answer)
        owed := match answer with | .granted => true | .refused | .failed _ => task.owed },
        ⟨[], [], false⟩)
    | _ => none
  | .acquired =>
    match task.stage with
    | .acquiring (some .granted) =>
      some ({ task with stage := .running true, renewal := some ⟨false, true, none⟩ },
        ⟨[], [], false⟩)
    | .acquiring (some .refused) => some (task.finish false .skipped, ⟨[], [.skipped], true⟩)
    | .acquiring (some (.failed error)) =>
      some (task.finish false (.failed error), ⟨[.thrown error], [.failed error], true⟩)
    | _ => none
  | .settles outcome =>
    match task.stage with
    | .running locked =>
      match outcome with
      | .ok value => some (task.finish locked (.completed value), ⟨[], [.completed value], !locked⟩)
      | .error error =>
        some (task.finish locked (.failed error), ⟨[.thrown error], [.failed error], !locked⟩)
    | _ => none
  | .timerFires =>
    match task.renewal with
    | some ⟨stopped, true, call⟩ =>
      match call with
      | none => some ({ task with renewal := some ⟨stopped, false, some none⟩ }, ⟨[], [], false⟩)
      | some _ => none
    | _ => none
  | .storeRenews answer =>
    match task.renewal with
    | some ⟨stopped, timer, some none⟩ =>
      some ({ task with
        renewal := some ⟨stopped, timer, some (some answer)⟩
        owed := match answer with | .granted => true | .refused | .failed _ => task.owed },
        ⟨[], [], false⟩)
    | _ => none
  | .renewed =>
    match task.renewal with
    | some ⟨stopped, timer, some (some answer)⟩ =>
      let renewed := task.renewed ⟨stopped, timer, some (some answer)⟩ answer
      some (renewed.1, ⟨renewed.2, [], false⟩)
    | _ => none
  | .storeReleases error =>
    match task.stage with
    | .releasing result none =>
      some ({ task with stage := .releasing result (some error), owed := false }, ⟨[], [], false⟩)
    | _ => none
  | .released =>
    match task.stage with
    | .releasing result (some error) =>
      some ({ task with stage := .finished result }, ⟨(error.map .thrown).toList, [], true⟩)
    | _ => none
  | .storeReleasesLate error =>
    match task.lateReleases with
    | 0 => none
    | lateReleases + 1 =>
      some ({ task with lateReleases, owed := false }, ⟨(error.map .thrown).toList, [], false⟩)
  | .resolves =>
    match task.stage with
    | .finished result => some ({ task with stage := .resolved result }, ⟨[], [], false⟩)
    | _ => none
  | .unlinks =>
    match task.stage with
    | .resolved result => some ({ task with stage := .unlinked result }, ⟨[], [], false⟩)
    | _ => none

end Task

def Stage.isUnlinked : Stage V E → Bool
  | .unlinked _ => true
  | .queued | .acquiring _ | .running _ | .releasing _ _ | .finished _ | .resolved _ => false

/-- `runTask` has begun and not ended. -/
def Stage.isInProgress : Stage V E → Bool
  | .acquiring _ | .running _ | .releasing _ _ => true
  | .queued | .finished _ | .resolved _ | .unlinked _ => false

/-! ## Runners -/

structure Runner (V E : Type) where
  /-- The tasks scheduled so far, in this order. -/
  tasks : List (Task V E)
  /-- The last task in the queue of a scope. -/
  queuesByScope : OrderedMap String ℕ
  inFlightTasks : List ℕ
  capturedErrors : List (ℕ × CapturedError E)
  events : List (ℕ × TaskEvent V E)

inductive Event (V E : Type)
  | schedule (observationScopeId : String) (taskKind : ObservationLogTaskKind)
  | act (id : ℕ) (action : Action V E)

namespace Runner

def initial : Runner V E := ⟨[], .empty, [], [], []⟩

section Operations

variable (lockStore : Bool) (maxCapturedErrors : ℕ) (r : Runner V E)

def schedule (observationScopeId : String) (taskKind : ObservationLogTaskKind) : Runner V E :=
  { r with
    tasks := r.tasks ++ [⟨observationScopeId, taskKind, r.queuesByScope.get? observationScopeId,
      .queued, none, 0, false⟩]
    queuesByScope := r.queuesByScope.set observationScopeId r.tasks.length
    inFlightTasks := r.inFlightTasks ++ [r.tasks.length]
    events := r.events ++ [(r.tasks.length, .queued)] }

/-- Only the last errors are kept. -/
def captured (errors : List (ℕ × CapturedError E)) : List (ℕ × CapturedError E) :=
  let all := r.capturedErrors ++ errors
  all.drop (all.length - maxCapturedErrors)

def commit (id : ℕ) (task : Task V E) (output : Output V E) : Runner V E :=
  { r with
    tasks := r.tasks.set id task
    inFlightTasks := if output.finished then r.inFlightTasks.erase id else r.inFlightTasks
    capturedErrors := r.captured maxCapturedErrors (output.errors.map fun error => (id, error))
    events := r.events ++ output.events.map fun event => (id, event) }

def isNext (task : Task V E) : Bool :=
  task.previous.all fun previous => r.tasks[previous]?.any fun before => before.stage.isUnlinked

/-- The entry of a scope is deleted by its own task only. -/
def unlink (id : ℕ) (task : Task V E) : Runner V E :=
  if r.queuesByScope.get? task.observationScopeId = some id then
    { r with queuesByScope := r.queuesByScope.delete task.observationScopeId }
  else r

def next : Event V E → Option (Runner V E)
  | .schedule observationScopeId taskKind => some (r.schedule observationScopeId taskKind)
  | .act id action =>
    r.tasks[id]?.bind fun task =>
      match action with
      | .start =>
        if r.isNext task then
          (task.act lockStore .start).map fun done => r.commit maxCapturedErrors id done.1 done.2
        else none
      | .unlinks =>
        (task.act lockStore .unlinks).map fun done =>
          (r.commit maxCapturedErrors id done.1 done.2).unlink id task
      | action =>
        (task.act lockStore action).map fun done => r.commit maxCapturedErrors id done.1 done.2

end Operations

end Runner

def runner (V E : Type) (lockStore : Bool) (maxCapturedErrors : ℕ) :
    Transition.System (Runner V E) (Event V E) where
  init r := r = .initial
  step r e t := r.next lockStore maxCapturedErrors e = some t

end N8n.AgentMemory
