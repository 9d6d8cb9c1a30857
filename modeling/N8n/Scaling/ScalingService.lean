import Mathlib.Algebra.Field.Rat
import Mathlib.Data.List.Nodup
import Mathlib.Logic.Function.Basic
import N8n.Foundations.Transition

/-!
# Queues of executions, and their recovery

Any number of processes put executions into queues, one for each pool of workers. A process opens
the queue of a pool when it first adds a job to it. An execution is stored before its job is added.

The leader looks for executions that are stored as in progress without a job. It reads the stored
ones, then the jobs of the queues that it has opened, one queue after the other, and marks the rest
as crashed. The callback of a timer does so, and arms the next timer when it is through.

## Main definitions

* `Execution`, `Job`: what is in the database, and what is in the queues
* `Instance`: the queues, the timers and the recovery cycles of a process
* `ScalingServices.next`: the steps
* `scalingServices`: all processes as a transition system
-/

namespace N8n.Scaling.Queues

/-! ## Executions and jobs -/

inductive ExecutionStatus
  | canceled | crashed | error | new | running | success | unknown | waiting
deriving DecidableEq, Repr

/-- `CRASHABLE_EXECUTION_STATUSES` -/
def ExecutionStatus.isCrashable : ExecutionStatus → Bool
  | .new | .running | .unknown => true
  | .canceled | .crashed | .error | .success | .waiting => false

def ExecutionStatus.isInProgress : ExecutionStatus → Bool
  | .new | .running => true
  | .canceled | .crashed | .error | .success | .unknown | .waiting => false

inductive Enqueueing
  /-- The job is still to be added. -/
  | created
  /-- A process is adding it to a queue. -/
  | adding (queueName : String)
  /-- The job was added, or will never be. -/
  | finished
deriving DecidableEq, Repr

structure Execution where
  status : ExecutionStatus
  enqueueing : Enqueueing
deriving DecidableEq

inductive JobStatus
  | waiting | active | finished
deriving DecidableEq, Repr

structure Job where
  executionId : ℕ
  queueName : String
  status : JobStatus
deriving DecidableEq

/-- A job is waiting or active. -/
def Job.isLive (job : Job) : Bool := job.status ≠ .finished

/-! ## Processes -/

structure QueueRecoveryConfig where
  batchSize : ℕ
  waitMs : ℚ

structure Timer where
  id : ℕ
  waitMs : ℚ
deriving DecidableEq

/-- A call of `recoverFromQueue` by the callback of a timer, at one of its awaits. -/
inductive Recovery
  /-- Before the stored executions are read. -/
  | finding
  /-- So many queues were read, with jobs for some executions. -/
  | listing (storedIds : List ℕ) (queuesRead : ℕ) (queuedIds : List ℕ)
  /-- Executions that are yet to be marked, of those that were stored. -/
  | crashing (stored : ℕ) (danglingIds : List ℕ)
deriving DecidableEq

structure Instance where
  /-- The queues that it has opened, the initial one first. -/
  queueNames : List String
  /-- The calls of `setupQueue` under way. -/
  settingUp : ℕ
  isLeader : Bool
  /-- The timer that was armed last. -/
  timeout : Option ℕ
  timers : List Timer
  /-- How many timers it has armed so far. -/
  armed : ℕ
  recoveries : List Recovery
  /-- Recovery was stopped, and there was no takeover since. -/
  stopped : Bool

namespace Instance

def initial (isLeader : Bool) : Instance where
  queueNames := []
  settingUp := 0
  isLeader := isLeader
  timeout := none
  timers := []
  armed := 0
  recoveries := []
  stopped := false

variable (p : Instance)

/-- The chains of recovery timers: those that are armed, and the callbacks that arm the next. -/
def chains : ℕ := p.timers.length + p.recoveries.length

/-- `queueByName.set(name, …)` -/
def openQueue (name : String) : Instance :=
  if name ∈ p.queueNames then p else { p with queueNames := p.queueNames ++ [name] }

def scheduleQueueRecovery (waitMs : ℚ) : Instance :=
  { p with
    timeout := some p.armed
    timers := p.timers ++ [⟨p.armed, waitMs⟩]
    armed := p.armed + 1 }

/-- The timer that was armed last is cleared. -/
def stopQueueRecovery : Instance :=
  match p.timeout with
  | some id => { p with timers := p.timers.filter (·.id ≠ id), stopped := true }
  | none => { p with stopped := true }

/-- The callback is through, and arms the next timer. -/
def endRecovery (c : ℕ) (waitMs : ℚ) : Instance :=
  { p with recoveries := p.recoveries.eraseIdx c }.scheduleQueueRecovery waitMs

def advance (c : ℕ) (recovery : Recovery) : Instance :=
  { p with recoveries := p.recoveries.set c recovery }

def conclude (config : QueueRecoveryConfig) (c : ℕ) (storedIds queuedIds : List ℕ) : Instance :=
  let danglingIds := storedIds.filter (· ∉ queuedIds)
  if danglingIds = [] then p.endRecovery c config.waitMs
  else p.advance c (.crashing storedIds.length danglingIds)

end Instance

/-! ## The system -/

structure ScalingServices where
  executions : List Execution
  jobs : List Job
  instances : ℕ → Instance

inductive Event
  | create
  | addJob (process execution : ℕ) (queueName : Option String)
  | jobAdded (execution : ℕ)
  /-- The job will not be added, whether the execution fails for it or is left behind. -/
  | jobNotAdded (execution : ℕ) (failed : Bool)
  | pickUp (job : ℕ)
  /-- A job is completed, failed or removed. -/
  | finishJob (job : ℕ)
  | setStatus (execution : ℕ) (status : ExecutionStatus)
  | setupQueue (process : ℕ)
  | queueSetUp (process : ℕ) (queueName : String)
  | takeover (process : ℕ)
  | stepdown (process : ℕ)
  /-- The process shuts down. -/
  | stop (process : ℕ)
  | fire (process timer : ℕ)
  | find (process recovery : ℕ) (storedIds : List ℕ)
  | list (process recovery : ℕ)
  | crash (process recovery : ℕ)
  | fail (process recovery : ℕ)

/-- `MAX_UPDATE_BATCH_SIZE` -/
def maxUpdateBatchSize : ℕ := 900

namespace ScalingServices

def initial (isLeader : ℕ → Bool) : ScalingServices where
  executions := []
  jobs := []
  instances p := .initial (isLeader p)

section Operations

variable (t : ScalingServices)

def setExecution (id : ℕ) (f : Execution → Execution) : ScalingServices :=
  { t with executions := t.executions.modify id f }

def setInstance (p : ℕ) (q : Instance) : ScalingServices :=
  { t with instances := Function.update t.instances p q }

/-- `getInProgressExecutionIds`: as many as there are, up to the size of a batch. -/
def IsBatch (batchSize : ℕ) (ids : List ℕ) : Prop :=
  ids.Nodup ∧ (∀ id ∈ ids, t.executions[id]?.any (·.status.isInProgress) = true) ∧
    ids.length = min batchSize (t.executions.countP (·.status.isInProgress))

instance (batchSize : ℕ) (ids : List ℕ) : Decidable (t.IsBatch batchSize ids) :=
  inferInstanceAs (Decidable (_ ∧ _ ∧ _))

def queuedIds (queueName : String) : List ℕ :=
  (t.jobs.filter fun job => job.queueName = queueName && job.isLive).map Job.executionId

/-- `transitionToCrashed` -/
def transitionToCrashed (ids : List ℕ) : ScalingServices :=
  ids.foldl (fun t id => t.setExecution id fun e =>
    if e.status.isCrashable then { e with status := .crashed } else e) t

def addJob (p id : ℕ) (queueName : Option String) : Option ScalingServices :=
  match t.executions[id]?.map Execution.enqueueing, (t.instances p).queueNames with
  | some .created, initialQueueName :: _ =>
    let name := queueName.getD initialQueueName
    some ((t.setInstance p ((t.instances p).openQueue name)).setExecution id fun e =>
      { e with enqueueing := .adding name })
  | _, _ => none

def jobAdded (id : ℕ) : Option ScalingServices :=
  match t.executions[id]?.map Execution.enqueueing with
  | some (.adding name) =>
    some { t.setExecution id fun e => { e with enqueueing := .finished } with
      jobs := t.jobs ++ [⟨id, name, .waiting⟩] }
  | _ => none

def jobNotAdded (id : ℕ) (failed : Bool) : Option ScalingServices :=
  match t.executions[id]?.map Execution.enqueueing with
  | some .finished | none => none
  | some _ =>
    some (t.setExecution id fun e =>
      ⟨if failed then .error else e.status, .finished⟩)

/-- The stored executions were read. -/
def find (config : QueueRecoveryConfig) (p c : ℕ) (ids : List ℕ) : Option ScalingServices :=
  if (t.instances p).recoveries[c]? = some .finding ∧ t.IsBatch config.batchSize ids then
    some (t.setInstance p <|
      if ids = [] then (t.instances p).endRecovery c config.waitMs
      else if (t.instances p).queueNames = [] then (t.instances p).conclude config c ids []
      else (t.instances p).advance c (.listing ids 0 []))
  else none

/-- The jobs of the next queue were read. -/
def list (config : QueueRecoveryConfig) (p c : ℕ) : Option ScalingServices :=
  match (t.instances p).recoveries[c]? with
  | some (.listing ids i queued) =>
    (t.instances p).queueNames[i]?.map fun name =>
      t.setInstance p <|
        if i + 1 < (t.instances p).queueNames.length then
          (t.instances p).advance c (.listing ids (i + 1) (queued ++ t.queuedIds name))
        else (t.instances p).conclude config c ids (queued ++ t.queuedIds name)
  | _ => none

/-- A batch of executions is marked. A recovery that has used up its batch runs again sooner. -/
def crash (config : QueueRecoveryConfig) (p c : ℕ) : Option ScalingServices :=
  match (t.instances p).recoveries[c]? with
  | some (.crashing stored ids) =>
    some ((t.transitionToCrashed (ids.take maxUpdateBatchSize)).setInstance p <|
      if ids.drop maxUpdateBatchSize = [] then
        (t.instances p).endRecovery c
          (if config.batchSize ≤ stored then config.waitMs / 2 else config.waitMs)
      else (t.instances p).advance c (.crashing stored (ids.drop maxUpdateBatchSize)))
  | _ => none

def next (config : QueueRecoveryConfig) : Event → Option ScalingServices
  | .create => some { t with executions := t.executions ++ [⟨.new, .created⟩] }
  | .addJob p id name => t.addJob p id name
  | .jobAdded id => t.jobAdded id
  | .jobNotAdded id failed => t.jobNotAdded id failed
  | .pickUp j =>
    if t.jobs[j]?.any (·.status = .waiting) then
      some { t with jobs := t.jobs.modify j fun job => { job with status := .active } }
    else none
  | .finishJob j =>
    some { t with jobs := t.jobs.modify j fun job => { job with status := .finished } }
  | .setStatus id status =>
    if status ≠ .crashed then some (t.setExecution id fun e => { e with status := status })
    else none
  | .setupQueue p =>
    some <|
      if (t.instances p).queueNames = [] then
        t.setInstance p { t.instances p with settingUp := (t.instances p).settingUp + 1 }
      else t
  | .queueSetUp p name =>
    if 0 < (t.instances p).settingUp then
      let ready : Instance :=
        { t.instances p with settingUp := (t.instances p).settingUp - 1 }.openQueue name
      some (t.setInstance p <| if ready.isLeader then ready.scheduleQueueRecovery 0 else ready)
    else none
  | .takeover p =>
    some (t.setInstance p
      ({ t.instances p with isLeader := true, stopped := false }.scheduleQueueRecovery
        config.waitMs))
  | .stepdown p =>
    some (t.setInstance p { (t.instances p).stopQueueRecovery with isLeader := false })
  | .stop p => some (t.setInstance p (t.instances p).stopQueueRecovery)
  | .fire p timer =>
    if (t.instances p).timers.any (·.id = timer) then
      some (t.setInstance p
        { t.instances p with
          timers := (t.instances p).timers.filter (·.id ≠ timer)
          recoveries := (t.instances p).recoveries ++ [.finding] })
    else none
  | .find p c ids => t.find config p c ids
  | .list p c => t.list config p c
  | .crash p c => t.crash config p c
  | .fail p c =>
    if c < (t.instances p).recoveries.length then
      some (t.setInstance p ((t.instances p).endRecovery c config.waitMs))
    else none

end Operations

end ScalingServices

def scalingServices (config : QueueRecoveryConfig) :
    Transition.System ScalingServices Event where
  init t := ∃ isLeader, t = .initial isLeader
  step t e u := t.next config e = some u

end N8n.Scaling.Queues
