import Mathlib.Algebra.Field.Rat
import Mathlib.Algebra.Order.Ring.Rat
import N8n.Foundations.OrderedMap
import N8n.Foundations.Transition

/-!
# The Python task runner

A runner offers its free slots to a broker, which accepts an offer for a task, sends the settings of
the task and may cancel it. The settings start an execution: a coroutine that creates a process,
runs it in a thread, and sends the result or an error. Messages are handled one after the other,
while executions, the loop that sends offers and the connection go on at every await.

Tasks and executions are numbered as they are made. The identifier of a task is the broker's, and
`running_tasks` finds a task by it.

## Main definitions

* `TaskState`, `Execution`: a task, and the coroutine that executes it
* `TaskRunner`: the runner
* `TaskRunner.next`: the messages, and what resumes after an await
* `taskRunner`: the runner as a transition system
-/

namespace N8n.PythonTaskRunner

/-! ## Tasks and executions -/

inductive TaskStatus
  | waitingForSettings | running | aborting
deriving DecidableEq, Repr

structure TaskState where
  taskId : ℕ
  status : TaskStatus
  /-- The execution that has created the process. -/
  process : Option ℕ
  /-- The connection that the task was accepted on. -/
  connection : ℕ
  /-- A cancel was handled while the task was running. -/
  cancelled : Bool
deriving DecidableEq, Repr

inductive Stage
  | scheduled
  /-- The thread is about to start the process. -/
  | starting
  | running
  /-- So many calls of `print` are to be sent, and then the result. -/
  | printing (calls : ℕ)
  /-- The error is to be sent. -/
  | failing
  | finished
deriving DecidableEq, Repr

structure Execution where
  taskId : ℕ
  /-- The task whose settings it was made for. -/
  task : ℕ
  continueOnFail : Bool
  stage : Stage
  alive : Bool
deriving DecidableEq, Repr

/-- The handler of a message, at an await. -/
inductive Handler
  /-- So many offers are to be sent. -/
  | offering (offers : ℕ)
  /-- `stop_process` runs in a thread. -/
  | stopping (task : ℕ) (process : Option ℕ)
deriving DecidableEq, Repr

/-! ## The runner -/

/-- A loop that sends offers sleeps, or has so many offers to send. -/
abbrev OffersLoop := Option ℕ

structure TaskRunner where
  connected : Bool
  /-- How many times it has connected. -/
  connections : ℕ
  canSendOffers : Bool
  /-- The offers, and until when they are valid. -/
  openOffers : OrderedMap ℕ ℚ
  runningTasks : OrderedMap ℕ ℕ
  tasks : ℕ → TaskState
  taskCount : ℕ
  executions : ℕ → Execution
  executionCount : ℕ
  offersCoroutine : Option OffersLoop
  /-- Loops that another one has replaced. -/
  otherLoops : List OffersLoop
  handler : Option Handler
  /-- In milliseconds. -/
  time : ℚ
  /-- The tasks whose result or error was sent. -/
  finals : List ℕ

/-- Who sends an offer. -/
inductive Sender
  | coroutine
  | other (loop : ℕ)
  | handler
deriving DecidableEq, Repr

inductive Event
  | wait (duration : ℚ)
  | connect
  | disconnect
  | runnerRegistered
  | taskOfferAccept (offerId taskId : ℕ)
  | taskSettings (taskId : ℕ) (continueOnFail : Bool)
  | taskCancel (taskId : ℕ)
  | drain
  | sendOffers (sender : Sender)
  | taskOffer (sender : Sender) (offerId jitter : ℕ) (sent : Bool)
  | stopped
  /-- The execution begins, and creates its process unless the code is not valid. -/
  | begins (execution : ℕ) (created : Bool)
  | starts (execution : ℕ) (started : Bool)
  /-- The process exits, or is stopped for its timeout. -/
  | exits (execution : ℕ)
  | returns (execution : ℕ) (prints : Option ℕ)
  | rpcCall (execution : ℕ) (sent : Bool)
  | taskDone (execution : ℕ) (sent : Bool)
  | taskError (execution : ℕ) (sent : Bool)

def offerValidity : ℚ := 5000

def offerValidityLatencyBuffer : ℚ := 100

namespace TaskRunner

def initial : TaskRunner where
  connected := false
  connections := 0
  canSendOffers := false
  openOffers := .empty
  runningTasks := .empty
  tasks _ := ⟨0, .waitingForSettings, none, 0, false⟩
  taskCount := 0
  executions _ := ⟨0, 0, false, .scheduled, false⟩
  executionCount := 0
  offersCoroutine := none
  otherLoops := []
  handler := none
  time := 0
  finals := []

section Operations

variable (maxConcurrency : ℕ) (t : TaskRunner)

def setTask (s : ℕ) (task : TaskState) : TaskRunner :=
  { t with tasks := Function.update t.tasks s task }

def setExecution (e : ℕ) (execution : Execution) : TaskRunner :=
  { t with executions := Function.update t.executions e execution }

def advance (e : ℕ) (stage : Stage) : TaskRunner :=
  t.setExecution e { t.executions e with stage := stage }

def hasExpired (validUntil : ℚ) : Bool := validUntil < t.time

/-! ### Offers -/

/-- The start of `_send_offers`: how many offers there are to send. -/
def sendOffers : ℕ × TaskRunner :=
  if t.canSendOffers then
    let expired := (t.openOffers.entries.filter fun offer => t.hasExpired offer.2).map Prod.fst
    let openOffers := expired.foldl OrderedMap.delete t.openOffers
    (maxConcurrency - (openOffers.size + t.runningTasks.size), { t with openOffers })
  else (0, t)

def offering : Sender → Option ℕ
  | .coroutine => t.offersCoroutine.join
  | .other i => t.otherLoops[i]?.join
  | .handler =>
    match t.handler with
    | some (.offering n) => some n
    | _ => none

/-- A sender has so many offers left. A loop without any sleeps, and a handler is done. -/
def setOffering (sender : Sender) (n : ℕ) : TaskRunner :=
  match sender with
  | .coroutine => { t with offersCoroutine := some (if n = 0 then none else some n) }
  | .other i => { t with otherLoops := t.otherLoops.set i (if n = 0 then none else some n) }
  | .handler => { t with handler := if n = 0 then none else some (.offering n) }

/-- The loop goes on after its sleep, unless no offers can be sent. -/
def loopOffers : Sender → Option TaskRunner
  | .coroutine =>
    if t.offersCoroutine = some none then
      some <|
        if t.canSendOffers then
          (t.sendOffers maxConcurrency).2.setOffering .coroutine (t.sendOffers maxConcurrency).1
        else { t with offersCoroutine := none }
    else none
  | .other i =>
    if t.otherLoops[i]? = some none then
      some <|
        if t.canSendOffers then
          (t.sendOffers maxConcurrency).2.setOffering (.other i) (t.sendOffers maxConcurrency).1
        else { t with otherLoops := t.otherLoops.eraseIdx i }
    else none
  | .handler => none

def taskOffer (sender : Sender) (offerId jitter : ℕ) (sent : Bool) : Option TaskRunner :=
  match t.offering sender with
  | some (n + 1) =>
    some ({ t with
      openOffers := t.openOffers.set offerId
        (t.time + (offerValidity + jitter) + offerValidityLatencyBuffer) }.setOffering sender
          (if sent then n else 0))
  | _ => none

/-! ### Messages -/

def taskOfferAccept (offerId taskId : ℕ) : TaskRunner :=
  match t.openOffers.get? offerId with
  | none => t
  | some validUntil =>
    if t.hasExpired validUntil then t
    else if maxConcurrency ≤ t.runningTasks.size then t
    else
      { t.setTask t.taskCount ⟨taskId, .waitingForSettings, none, t.connections, false⟩ with
        openOffers := t.openOffers.delete offerId
        runningTasks := t.runningTasks.set taskId t.taskCount
        taskCount := t.taskCount + 1 }

def taskSettings (taskId : ℕ) (continueOnFail : Bool) : TaskRunner :=
  match t.runningTasks.get? taskId with
  | none => t
  | some s =>
    if (t.tasks s).status = .waitingForSettings then
      { (t.setTask s { t.tasks s with status := .running }).setExecution t.executionCount
          ⟨taskId, s, continueOnFail, .scheduled, false⟩ with
        executionCount := t.executionCount + 1 }
    else t

def taskCancel (taskId : ℕ) : TaskRunner :=
  match t.runningTasks.get? taskId with
  | none => t
  | some s =>
    match (t.tasks s).status with
    | .waitingForSettings =>
      let u := { t with runningTasks := t.runningTasks.delete taskId }
      (u.sendOffers maxConcurrency).2.setOffering .handler (u.sendOffers maxConcurrency).1
    | .running =>
      { t.setTask s { t.tasks s with status := .aborting } with
        handler := some (.stopping s (t.tasks s).process) }
    | .aborting => t

/-- `stop_process` does nothing to a process that is not alive. -/
def stopped : Option TaskRunner :=
  match t.handler with
  | some (.stopping s process) =>
    let u := { t.setTask s { t.tasks s with cancelled := true } with handler := none }
    some <|
      match process with
      | none => u
      | some e => u.setExecution e { u.executions e with alive := false }
  | _ => none

/-! ### Executions -/

def begins (e : ℕ) (created : Bool) : Option TaskRunner :=
  if e < t.executionCount ∧ (t.executions e).stage = .scheduled then
    some <|
      match t.runningTasks.get? (t.executions e).taskId with
      | none => t.advance e .failing
      | some s =>
        if created then (t.setTask s { t.tasks s with process := some e }).advance e .starting
        else t.advance e .failing
  else none

/-- `execute_process` returns or raises once the process is not alive. -/
def returns (e : ℕ) (prints : Option ℕ) : Option TaskRunner :=
  if e < t.executionCount ∧ (t.executions e).stage = .running ∧ (t.executions e).alive = false then
    match prints with
    | some calls => some (t.advance e (.printing calls))
    | none => if (t.executions e).continueOnFail then none else some (t.advance e .failing)
  else none

/-- The end of `_execute_task`. -/
def finish (e : ℕ) : TaskRunner :=
  { t.advance e .finished with runningTasks := t.runningTasks.delete (t.executions e).taskId }

def sendFinal (e : ℕ) : TaskRunner :=
  { t with finals := t.finals ++ [(t.executions e).task] }

def next : Event → Option TaskRunner
  | .wait duration => if 0 ≤ duration then some { t with time := t.time + duration } else none
  | .connect =>
    if t.connected then none
    else some { t with connected := true, connections := t.connections + 1 }
  | .disconnect =>
    if t.connected = true ∧ t.handler = none then
      some { t with connected := false, canSendOffers := false, offersCoroutine := none }
    else none
  | .runnerRegistered =>
    if t.connected = true ∧ t.handler = none then
      some { t with
        canSendOffers := true
        offersCoroutine := some none
        otherLoops := t.otherLoops ++ t.offersCoroutine.toList }
    else none
  | .taskOfferAccept offerId taskId =>
    if t.connected = true ∧ t.handler = none then
      some (t.taskOfferAccept maxConcurrency offerId taskId)
    else none
  | .taskSettings taskId continueOnFail =>
    if t.connected = true ∧ t.handler = none then some (t.taskSettings taskId continueOnFail)
    else none
  | .taskCancel taskId =>
    if t.connected = true ∧ t.handler = none then some (t.taskCancel maxConcurrency taskId)
    else none
  | .drain =>
    if t.connected = true ∧ t.handler = none then
      some { t with canSendOffers := false, offersCoroutine := none }
    else none
  | .sendOffers sender => t.loopOffers maxConcurrency sender
  | .taskOffer sender offerId jitter sent =>
    if sent ≤ t.connected then t.taskOffer sender offerId jitter sent else none
  | .stopped => t.stopped
  | .begins e created => t.begins e created
  | .starts e started =>
    if e < t.executionCount ∧ (t.executions e).stage = .starting then
      some (t.setExecution e { t.executions e with stage := .running, alive := started })
    else none
  | .exits e =>
    if e < t.executionCount ∧ (t.executions e).alive = true then
      some (t.setExecution e { t.executions e with alive := false })
    else none
  | .returns e prints => t.returns e prints
  | .rpcCall e sent =>
    match (t.executions e).stage with
    | .printing (calls + 1) =>
      if e < t.executionCount ∧ sent ≤ t.connected then
        some (t.advance e (if sent then .printing calls else .failing))
      else none
    | _ => none
  | .taskDone e sent =>
    if e < t.executionCount ∧ (t.executions e).stage = .printing 0 ∧ sent ≤ t.connected then
      some (if sent then (t.sendFinal e).finish e else t.advance e .failing)
    else none
  | .taskError e sent =>
    if e < t.executionCount ∧ (t.executions e).stage = .failing ∧ sent ≤ t.connected then
      some (if sent then (t.sendFinal e).finish e else t.finish e)
    else none

end Operations

end TaskRunner

def taskRunner (maxConcurrency : ℕ) : Transition.System TaskRunner Event where
  init t := t = .initial
  step t e u := t.next maxConcurrency e = some u

end N8n.PythonTaskRunner
