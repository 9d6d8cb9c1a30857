import Mathlib.Logic.Function.Basic
import N8n.Foundations.OrderedMap
import N8n.Foundations.Transition
import N8n.Scheduler.ScheduledTask

/-!
# The executor and the reaper

Any number of executors claim due tasks, arm a timer for each and fire it: an executor confirms the
lease, runs the handler and records the outcome. A reaper recovers the rows whose lease has expired.
What one of them has under way is a process; a step is one statement of one process, or what a
process does between two statements. A process may be lost at any point, with its executor or alone.

## Main definitions

* `Process`: a claim, an armed timer, a release, a fire or a sweep under way
* `Executor`, `Cluster`: the state of one executor, and of all of them with the table
* `recordOutcome`, `recoverExpired`: which statement a fire ends with, and a sweep
* `cluster`: the statements and steps of all of them as a transition system
-/

namespace N8n.Scheduler

/-! ## Processes -/

/-- How long to wait after the given attempt has failed. -/
def backoff (attempts : ℤ) : ℤ :=
  if attempts < 1 then 0
  else min (toMilliseconds 5 * 2 ^ (attempts - 1).toNat) (toMilliseconds 300)

structure ExecutorOptions where
  leaseSeconds : ℕ
  lookaheadSeconds : ℕ
  batchSize : ℕ
  deriving DecidableEq, Repr

def ExecutorOptions.leaseMs (options : ExecutorOptions) : ℤ := toMilliseconds options.leaseSeconds

def ExecutorOptions.lookaheadMs (options : ExecutorOptions) : ℤ :=
  toMilliseconds options.lookaheadSeconds

structure ClaimedEntry where
  host : String
  task : ScheduledTask
  deriving DecidableEq, Repr

def ClaimedEntry.claim (entry : ClaimedEntry) : HostedClaimedRef :=
  ⟨⟨entry.task.id, entry.task.leaseEpoch⟩, entry.host⟩

inductive HandlerResult
  | returned
  | threw (errorMessage : String)
  deriving DecidableEq, Repr

/-- How far a fire has come. -/
inductive FireStage
  /-- It waits for `beginDispatch`. -/
  | confirming
  /-- It has won the right to run the handler. -/
  | won
  | executing
  /-- The handler has settled; the outcome is yet to be recorded. -/
  | ended (result : HandlerResult)
  deriving DecidableEq, Repr

/-- The promise of the write that marks the dispatch: none yet, one under way, or one settled. -/
inductive DispatchMark
  | unset
  | writing
  | settled
  deriving DecidableEq, Repr

/-- `dispatchMark ??= …`. -/
def DispatchMark.begin : DispatchMark → DispatchMark
  | unset => writing
  | dispatchMark => dispatchMark

inductive Process
  | claimed (host : String) (tasks : List ScheduledTask)
  | timer (entry : ClaimedEntry)
  | releasing (claim : HostedClaimedRef)
  | firing (entry : ClaimedEntry) (stage : FireStage) (dispatchMark : DispatchMark)
  /-- The rows that a sweep has yet to recover, as it read them. -/
  | reaping (expired : List ScheduledTask)
  deriving DecidableEq, Repr

/-- What a fire records when its handler has settled. The attempts are those of the claim. -/
def recordOutcome (tasks : Tasks) (entry : ClaimedEntry) (result : HandlerResult)
    (dispatchMark : DispatchMark) (now : ℤ) : Tasks × ℕ :=
  match result with
  | .returned => tasks.completeTask entry.claim now
  | .threw errorMessage =>
    let nextAttempts := entry.task.attempts + 1
    if entry.task.maxAttempts ≤ nextAttempts then
      -- an effect that was handed off before the throw is not recorded as failed
      if dispatchMark ≠ .unset then tasks.completeTask entry.claim now
      else tasks.failTaskTerminal entry.claim errorMessage now
    else tasks.rescheduleTask entry.claim (backoff nextAttempts) errorMessage now

def LEASE_EXPIRED_MESSAGE : String := "Lease expired before completion"

/-- What a sweep does with one row that it read. -/
def recoverExpired (tasks : Tasks) (task : ScheduledTask) (now : ℤ) : Tasks × ℕ :=
  let nextAttempts := task.attempts + 1
  let ref : ClaimedRef := ⟨task.id, task.leaseEpoch⟩
  if task.dispatchedAt.isSome then tasks.completeExpired ref now
  else if task.maxAttempts ≤ nextAttempts then
    tasks.deadLetterExpired ref LEASE_EXPIRED_MESSAGE now
  else tasks.reclaimExpired ref (backoff nextAttempts) LEASE_EXPIRED_MESSAGE now

namespace Process

/-- The statement that a process waits for, and what becomes of the process. -/
def write (options : ExecutorOptions) (tasks : Tasks) (now : ℤ) :
    Process → Option (Tasks × List Process)
  | releasing claim => some ((tasks.releaseClaim claim).1, [])
  | firing entry .confirming dispatchMark =>
    let (tasks, won) := tasks.beginDispatch entry.claim options.leaseMs now
    some (tasks, if won = 0 then [] else [firing entry .won dispatchMark])
  | firing entry stage .writing =>
    some ((tasks.markDispatched entry.claim now).1, [firing entry stage .settled])
  | firing entry (.ended result) dispatchMark =>
    some ((recordOutcome tasks entry result dispatchMark now).1, [])
  | reaping (task :: expired) =>
    some ((recoverExpired tasks task now).1, [reaping expired])
  | _ => none

/-- What becomes of a process whose statement has failed, or whose answer is lost. A lost mark is
only reported, and a sweep goes on with its next row. -/
def fail : Process → Option (List Process)
  | claimed _ _ | releasing _ => some []
  | firing entry stage .writing => some [firing entry stage .settled]
  | firing _ .executing _ => none
  | firing _ _ _ => some []
  | reaping (_ :: expired) => some [reaping expired]
  | _ => none

end Process

/-! ## Executors -/

structure Executor where
  claimedTaskById : OrderedMap ℕ ClaimedEntry
  stopping : Bool

namespace Executor

def initial : Executor := ⟨.empty, false⟩

def handBackClaims (host : String) (tasks : List ScheduledTask) : List Process :=
  tasks.map fun task => .releasing (ClaimedEntry.mk host task).claim

def scheduleClaimed (executor : Executor) (entry : ClaimedEntry) : Executor :=
  { executor with claimedTaskById := executor.claimedTaskById.set entry.task.id entry }

/-- `claimAndSchedule` once the claim has been answered. -/
def schedule (executor : Executor) (host : String) (tasks : List ScheduledTask) (aborted : Bool) :
    Executor × List Process :=
  if executor.stopping || aborted then (executor, handBackClaims host tasks)
  else
    ((tasks.map (ClaimedEntry.mk host)).foldl scheduleClaimed executor,
      tasks.map fun task => .timer ⟨host, task⟩)

/-- A timer goes off: the entry is no longer the executor's to release. -/
def fire (executor : Executor) (entry : ClaimedEntry) (registered : Bool) :
    Executor × List Process :=
  ({ executor with claimedTaskById := executor.claimedTaskById.delete entry.task.id },
    if registered then [.firing entry .confirming .unset] else [.releasing entry.claim])

end Executor

structure Cluster where
  tasks : Tasks
  lastId : ℕ
  executors : ℕ → Executor
  /-- What is under way, each with the executor it belongs to. -/
  processes : List (ℕ × Process)

namespace Cluster

def initial : Cluster := ⟨.empty, 0, fun _ => .initial, []⟩

/-- The process at `k`, of executor `i`, goes on as other processes. -/
def become (s : Cluster) (k i : ℕ) (processes : List Process) : Cluster :=
  { s with processes := processes.map (Prod.mk i) ++ s.processes.eraseIdx k }

def setExecutor (s : Cluster) (i : ℕ) (executor : Executor) : Cluster :=
  { s with executors := Function.update s.executors i executor }

def isTimerOf (i : ℕ) : ℕ × Process → Bool
  | (j, .timer _) => j = i
  | _ => false

/-- Cancel the timers of an executor and release what it has tracked. -/
def stop (s : Cluster) (i : ℕ) : Cluster :=
  let executor := s.executors i
  let releases := executor.claimedTaskById.values.map fun entry => (i, .releasing entry.claim)
  { s.setExecutor i { executor with stopping := true } with
    processes := releases ++ s.processes.filter fun p => !isTimerOf i p }

end Cluster

/-! ## Runs -/

inductive Event
  /-- One row of `insertIgnoringDuplicates`, under the id that the database assigns. -/
  | insert (id : ℕ) (occurrence : RecordedOccurrence)
  | deletePending (jobIds : List ℕ)
  | updateToMissed (superseded : List (ℕ × ℤ)) (now : ℤ)
  | updateMissedAfter (jobIds : List ℕ) (misfireGraceSeconds : ℕ) (now : ℤ)
  | deleteFinished (statuses : List ScheduledTaskStatus) (olderThanMs : ℤ) (batch : List ℕ)
    (now : ℤ)
  | deleteJob (jobId : ℕ)
  | retireMissedPending (limit : ℕ) (locked : List ℕ) (now : ℤ)
  | claimDueTasks (i : ℕ) (host : String) (taskTypes : List String) (locked : List ℕ) (now : ℤ)
  | findExpiredLeases (i limit : ℕ) (now : ℤ)
  /-- The statement that process `k` waits for. -/
  | write (k : ℕ) (now : ℤ)
  | fail (k : ℕ)
  /-- The answer of the claim `k` reaches its executor. -/
  | schedule (k : ℕ) (aborted : Bool)
  /-- The timer `k` goes off. -/
  | fire (k : ℕ) (registered : Bool)
  /-- The handler is started for a task. -/
  | execute (k : ℕ) (task : ScheduledTask)
  /-- The handler reports that its effect was handed off. -/
  | dispatched (k : ℕ)
  | settle (k : ℕ) (result : HandlerResult)
  | abortSweep (k : ℕ)
  | stop (i : ℕ)
  /-- All the releases of a stopped executor have settled. -/
  | clear (i : ℕ)
  | crash (i : ℕ)
  deriving DecidableEq, Repr

/-- The task whose handler a step starts. -/
def Event.started : Event → Option ScheduledTask
  | execute _ task => some task
  | _ => none

section Runs

variable (isPostgres : Bool) (options : ℕ → ExecutorOptions)

def Cluster.next (s : Cluster) : Event → Option Cluster
  | .insert id occurrence =>
    if s.lastId < id then
      some { s with tasks := s.tasks.insertIgnoringDuplicates id occurrence, lastId := id }
    else none
  | .deletePending jobIds => some { s with tasks := s.tasks.deletePendingByJobIds jobIds }
  | .updateToMissed superseded now =>
    some { s with tasks := s.tasks.updateToMissed superseded now }
  | .updateMissedAfter jobIds misfireGraceSeconds now =>
    some { s with tasks := s.tasks.updateMissedAfterForJobs jobIds misfireGraceSeconds now }
  | .deleteFinished statuses olderThanMs batch now =>
    some { s with tasks := s.tasks.deleteFinishedOlderThan statuses olderThanMs batch now }
  | .deleteJob jobId => some { s with tasks := s.tasks.deleteByJobId jobId }
  | .retireMissedPending limit locked now =>
    some { s with tasks := s.tasks.retireMissedPending limit locked now }
  | .claimDueTasks i host taskTypes locked now =>
    let batch := ⟨host, taskTypes, (options i).lookaheadMs, (options i).leaseMs,
      (options i).batchSize⟩
    let (tasks, claimed) := s.tasks.claimDueTasks isPostgres batch locked now
    some { s with tasks := tasks, processes := (i, .claimed host claimed) :: s.processes }
  | .findExpiredLeases i limit now =>
    some { s with processes := (i, .reaping (s.tasks.findExpiredLeases limit now)) :: s.processes }
  | .write k now =>
    match s.processes[k]? with
    | some (i, p) => (p.write (options i) s.tasks now).map fun (tasks, processes) =>
      { s with tasks := tasks }.become k i processes
    | none => none
  | .fail k =>
    match s.processes[k]? with
    | some (i, p) => p.fail.map (s.become k i)
    | none => none
  | .schedule k aborted =>
    match s.processes[k]? with
    | some (i, .claimed host tasks) =>
      let (executor, processes) := (s.executors i).schedule host tasks aborted
      some ((s.setExecutor i executor).become k i processes)
    | _ => none
  | .fire k registered =>
    match s.processes[k]? with
    | some (i, .timer entry) =>
      let (executor, processes) := (s.executors i).fire entry registered
      some ((s.setExecutor i executor).become k i processes)
    | _ => none
  | .execute k task =>
    match s.processes[k]? with
    | some (i, .firing entry .won dispatchMark) =>
      if entry.task = task then some (s.become k i [.firing entry .executing dispatchMark])
      else none
    | _ => none
  | .dispatched k =>
    match s.processes[k]? with
    | some (i, .firing entry .executing dispatchMark) =>
      some (s.become k i [.firing entry .executing dispatchMark.begin])
    | _ => none
  | .settle k result =>
    match s.processes[k]? with
    | some (i, .firing entry .executing dispatchMark) =>
      -- a clean return counts as dispatched
      let dispatchMark := if result = .returned then dispatchMark.begin else dispatchMark
      some (s.become k i [.firing entry (.ended result) dispatchMark])
    | _ => none
  | .abortSweep k =>
    match s.processes[k]? with
    | some (i, .reaping _) => some (s.become k i [])
    | _ => none
  | .stop i => some (s.stop i)
  | .clear i =>
    if (s.executors i).stopping then
      some (s.setExecutor i { s.executors i with claimedTaskById := .empty })
    else none
  | .crash i =>
    some { s.setExecutor i .initial with processes := s.processes.filter fun p => p.1 ≠ i }

/-- The statements and steps of any number of executors and reapers, in any order. -/
def cluster : Transition.System Cluster Event where
  init s := s = .initial
  step s e t := s.next isPostgres options e = some t

end Runs

end N8n.Scheduler
