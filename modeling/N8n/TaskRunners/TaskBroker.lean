import N8n.Foundations.OrderedMap
import N8n.Foundations.OrderedSet
import N8n.Foundations.Transition

/-!
# The task broker

Requesters ask the broker for a runner, runners offer to run tasks, and the broker matches the
two. A match is a handshake: the runner is told that its offer is accepted and acknowledges the
task, then the requester is told that a runner is ready and sends the settings, which the runner
gets. The handshake waits between its steps, and in the meantime offers and requests expire, the
two sides disconnect, tasks fail and other matches are made.

A state holds what the broker keeps, each handshake that is going on with the place where it
waits, and what has been asked for, offered, sent and reported. Each event is what happens until
the code waits again. A timer is there as the event that it fires.

## Main definitions

* `TaskBroker`: the states
* `TaskBroker.settleTasks`, `TaskBroker.acceptOffer`: matching, and the start of a handshake
* `TaskBroker.advance`: a handshake goes on after what it waits for
* `next`: the events
* `broker`: the runs of the broker
-/

namespace N8n.TaskRunners

structure TaskRunner where
  id : String
  taskTypes : List String

structure Task where
  id : String
  runnerId : String
  requesterId : String
  taskType : String
  /-- Whether the timer of the task runs. -/
  timeout : Bool

/-- An offer is valid until a time, or for ever if it is valid for `-1` milliseconds. -/
structure TaskOffer where
  offerId : String
  runnerId : String
  taskType : String
  validFor : ℤ
  validUntil : ℤ

/-- A request; two with the same id are different objects. -/
structure TaskRequest where
  requestId : String
  requesterId : String
  taskType : String
  acceptInProgress : Bool
  object : ℕ

inductive BrokerError
  | taskReject (reason : String)
  | taskDeferred
  | runnerAcceptTimeout
  | requesterAcceptTimeout
  | runnerUnreachable
  | unexpected (message : String)
  deriving DecidableEq

/-- A promise with its callbacks: the first one that is called settles it. -/
inductive AcceptPromise (α : Type)
  | pending
  | resolved (value : α)
  | rejected (error : BrokerError)

def AcceptPromise.settle {α : Type} (promise outcome : AcceptPromise α) : AcceptPromise α :=
  match promise with
  | .pending => outcome
  | _ => promise

/-- Where a handshake waits. -/
inductive Stage
  /-- `broker:taskofferaccept` is being sent to the runner. -/
  | offering (acceptPromise : AcceptPromise Unit)
  | awaitingRunner (acceptPromise : AcceptPromise Unit)
  /-- The runner took too long, and is being told. -/
  | dropping
  /-- `broker:taskready` is being sent to the requester. -/
  | readying (acceptPromise : AcceptPromise String)
  | awaitingRequester (acceptPromise : AcceptPromise String)
  /-- The requester is being told that the runner is gone. -/
  | failing (error : BrokerError)
  /-- The runner has been found. -/
  | arming (settings : String)
  /-- `broker:tasksettings` is being sent to the runner. -/
  | sendingSettings
  /-- The runner is being told that the task is cancelled. -/
  | cancelling

/-- A handshake, with the offer and the request that it is for. -/
structure Attempt where
  offer : TaskOffer
  request : TaskRequest
  stage : Stage

/-- What the broker sends to a runner, and what to a requester. -/
inductive BrokerMessage
  | runnerregistered (runnerId : String)
  | taskofferaccept (runnerId offerId taskId : String)
  | taskcancel (runnerId taskId reason : String)
  | tasksettings (runnerId taskId settings : String)
  | taskdataresponse (runnerId taskId requestId data : String)
  | nodetypes (runnerId taskId requestId nodeTypes : String)
  | rpcresponse (runnerId taskId callId data : String)
  | taskready (requesterId requestId taskId : String)
  | requestexpired (requesterId requestId reason : String)
  | taskdone (requesterId taskId data : String)
  | taskerror (requesterId taskId error : String)
  | taskdatarequest (requesterId taskId requestId params : String)
  | nodetypesrequest (requesterId taskId requestId params : String)
  | rpc (requesterId taskId callId name params : String)
  deriving DecidableEq

inductive RunnerMessage
  | taskaccepted (taskId : String)
  | taskrejected (taskId reason : String)
  | taskdeferred (taskId : String)
  | taskoffer (offerId taskType : String) (validFor : ℤ)
  | taskdone (taskId data : String)
  | taskerror (taskId error : String)
  | taskdatarequest (taskId requestId params : String)
  | nodetypesrequest (taskId requestId params : String)
  | rpc (taskId callId name params : String)
  | info

inductive RequesterMessage
  | tasksettings (taskId settings : String)
  | taskcancel (taskId reason : String)
  | taskrequest (requestId taskType : String)
  | taskdataresponse (taskId requestId data : String)
  | nodetypesresponse (taskId requestId nodeTypes : String)
  | rpcresponse (taskId callId data : String)

structure AcceptTimeouts where
  count : ℕ
  lastTimeoutAt : ℕ

structure TaskBroker where
  knownRunners : OrderedMap String TaskRunner
  requesters : OrderedSet String
  tasks : OrderedMap String Task
  isDraining : Bool
  /-- The runner whose acknowledgement each task waits for. -/
  runnerAcceptRejects : OrderedMap String String
  requesterAcceptRejects : OrderedSet String
  consecutiveAcceptTimeouts : OrderedMap String AcceptTimeouts
  silentRunnersSince : OrderedMap String ℕ
  pendingTaskOffers : List TaskOffer
  pendingTaskRequests : List TaskRequest
  /-- The handshakes that go on, by the id of their task. -/
  attempts : OrderedMap String Attempt
  /-- The tasks that took too long, whose runner is being told. -/
  expiring : List String
  /-- How many task ids have been drawn, and how many requests there have been. -/
  drawn : ℕ
  objects : ℕ
  /-- The ids of the requests and of the offers that came in. -/
  requested : List String
  offered : List String
  /-- What has been sent to those that are registered, and which runners have been reported. -/
  sent : List BrokerMessage
  unresponsive : List String

/-- The way the runners are operated, and how many seconds an acknowledgement may take. -/
structure TaskRunnersConfig where
  isExternal : Bool
  taskAcceptTimeout : ℕ

/-- What an event finds outside of the broker: the time in nanoseconds, and which runners can be
sent messages. -/
structure Surroundings where
  now : ℕ
  isRunnerReachable : String → Bool

namespace TaskBroker

def initial : TaskBroker where
  knownRunners := .empty
  requesters := .empty
  tasks := .empty
  isDraining := false
  runnerAcceptRejects := .empty
  requesterAcceptRejects := .empty
  consecutiveAcceptTimeouts := .empty
  silentRunnersSince := .empty
  pendingTaskOffers := []
  pendingTaskRequests := []
  attempts := .empty
  expiring := []
  drawn := 0
  objects := 0
  requested := []
  offered := []
  sent := []
  unresponsive := []

/-! ## Messages and tasks -/

def messageRunner (runnerId : String) (message : BrokerMessage) (s : TaskBroker) : TaskBroker :=
  if runnerId ∈ s.knownRunners.keys then { s with sent := s.sent ++ [message] } else s

def messageRequester (requesterId : String) (message : BrokerMessage) (s : TaskBroker) :
    TaskBroker :=
  if requesterId ∈ s.requesters then { s with sent := s.sent ++ [message] } else s

def untrackTask (taskId : String) (s : TaskBroker) : TaskBroker :=
  { s with tasks := s.tasks.delete taskId }

def cancelTask (taskId reason : String) (s : TaskBroker) : TaskBroker :=
  match s.tasks.get? taskId with
  | none => s
  | some task =>
    (s.untrackTask taskId).messageRunner task.runnerId (.taskcancel task.runnerId taskId reason)

def settleTask (taskId : String) (message : Task → BrokerMessage) (s : TaskBroker) : TaskBroker :=
  match s.tasks.get? taskId with
  | none => s
  | some task => (s.untrackTask taskId).messageRequester task.requesterId (message task)

def failTask (taskId error : String) : TaskBroker → TaskBroker :=
  settleTask taskId fun task => .taskerror task.requesterId taskId error

def taskDoneHandler (taskId data : String) : TaskBroker → TaskBroker :=
  settleTask taskId fun task => .taskdone task.requesterId task.id data

def taskErrorHandler (taskId error : String) : TaskBroker → TaskBroker :=
  settleTask taskId fun task => .taskerror task.requesterId task.id error

def failTasks (taskIds : List String) (error : String) (s : TaskBroker) : TaskBroker :=
  taskIds.foldl (fun s taskId => s.failTask taskId error) s

def getInFlightTaskIds (s : TaskBroker) (runnerId : String) : List String :=
  (s.tasks.values.filter fun task => task.runnerId = runnerId).map Task.id

/-! ## Offers -/

def discardOffers (shouldDiscard : TaskOffer → Bool) (s : TaskBroker) : TaskBroker :=
  { s with pendingTaskOffers := s.pendingTaskOffers.filter fun offer => ¬ shouldDiscard offer }

def discardOffersFrom (runnerId : String) : TaskBroker → TaskBroker :=
  discardOffers fun offer => offer.runnerId = runnerId

section Surrounded

variable (env : Surroundings)

def expireTasks : TaskBroker → TaskBroker :=
  discardOffers fun offer => offer.validFor ≠ -1 ∧ offer.validUntil < env.now

def discardOffersFromUnreachableRunners (s : TaskBroker) : TaskBroker :=
  s.discardOffers fun offer =>
    offer.runnerId ∈ s.knownRunners.keys ∧ ¬ env.isRunnerReachable offer.runnerId

/-! ## Runners without a sign of life -/

def monotonicNowMs : ℕ := env.now / 1000000

def minSilenceDurationMs : ℕ := 2000

def maxConsecutiveAcceptTimeouts : ℕ := 3

def isSilent (s : TaskBroker) (runnerId : String) : Bool :=
  let hasPendingOffer := s.pendingTaskOffers.any fun offer => offer.runnerId = runnerId
  let hasInFlightTask := s.getInFlightTaskIds runnerId ≠ []
  let hasAcceptanceInProgress := s.runnerAcceptRejects.values.any fun id => id = runnerId
  ¬ hasPendingOffer ∧ ¬ hasInFlightTask ∧ ¬ hasAcceptanceInProgress

def reportUnresponsive (runnerId : String) (s : TaskBroker) : Bool × TaskBroker :=
  if s.getInFlightTaskIds runnerId ≠ [] then (false, s)
  else (true, { s with unresponsive := s.unresponsive ++ [runnerId] })

def flagSilentRunner (s : TaskBroker) (runner : TaskRunner) : TaskBroker :=
  if ¬ s.isSilent runner.id then
    { s with silentRunnersSince := s.silentRunnersSince.delete runner.id }
  else
    match s.silentRunnersSince.get? runner.id with
    | none =>
      { s with silentRunnersSince := s.silentRunnersSince.set runner.id (monotonicNowMs env) }
    | some silentSince =>
      if minSilenceDurationMs ≤ monotonicNowMs env - silentSince then
        let (reported, s) := s.reportUnresponsive runner.id
        if reported then { s with silentRunnersSince := s.silentRunnersSince.delete runner.id }
        else s
      else s

def flagSilentRunners (taskType : String) (s : TaskBroker) : TaskBroker :=
  let s := s.expireTasks env
  ((s.knownRunners.values.filter fun runner => taskType ∈ runner.taskTypes).filter fun runner =>
    env.isRunnerReachable runner.id).foldl (flagSilentRunner env) s

def flagRunnerIfUnresponsive (config : TaskRunnersConfig) (runnerId : String) (s : TaskBroker) :
    TaskBroker :=
  let now := monotonicNowMs env
  let previous := s.consecutiveAcceptTimeouts.get? runnerId
  let acceptWindowMs := config.taskAcceptTimeout * 1000
  if previous.any fun previous => now - previous.lastTimeoutAt < acceptWindowMs then s
  else
    let failures := min (previous.elim 0 AcceptTimeouts.count + 1) maxConsecutiveAcceptTimeouts
    let s := { s with
      consecutiveAcceptTimeouts := s.consecutiveAcceptTimeouts.set runnerId ⟨failures, now⟩ }
    if failures < maxConsecutiveAcceptTimeouts then s
    else
      let (reported, s) := s.reportUnresponsive runnerId
      if reported then
        { s with consecutiveAcceptTimeouts := s.consecutiveAcceptTimeouts.delete runnerId }
      else s

end Surrounded

/-! ## Matching -/

section Matching

variable (nanoid : ℕ → String) (env : Surroundings)

/-- The handshake begins: the runner is told, and its acknowledgement is waited for. -/
def acceptOffer (offer : TaskOffer) (request : TaskRequest) (s : TaskBroker) : TaskBroker :=
  let taskId := nanoid s.drawn
  messageRunner offer.runnerId (.taskofferaccept offer.runnerId offer.offerId taskId) { s with
    drawn := s.drawn + 1
    runnerAcceptRejects := s.runnerAcceptRejects.set taskId offer.runnerId
    attempts := s.attempts.set taskId ⟨offer, request, .offering .pending⟩ }

/-- `request.acceptInProgress = value`, which matters as long as the request is pending. -/
def setAcceptInProgress (request : TaskRequest) (value : Bool) (s : TaskBroker) : TaskBroker :=
  { s with
    pendingTaskRequests := s.pendingTaskRequests.map fun pending =>
      if pending.object = request.object then { pending with acceptInProgress := value }
      else pending }

def settleRequest (s : TaskBroker) (request : TaskRequest) : TaskBroker :=
  if request.acceptInProgress then s
  else
    match s.pendingTaskOffers.find? fun offer => offer.taskType = request.taskType with
    | none => s
    | some offer =>
      let s := s.setAcceptInProgress request true
      acceptOffer nanoid offer request { s with
        pendingTaskOffers := s.pendingTaskOffers.eraseP fun offer =>
          offer.taskType = request.taskType }

def settleTasks (s : TaskBroker) : TaskBroker :=
  let s := (s.expireTasks env).discardOffersFromUnreachableRunners env
  s.pendingTaskRequests.foldl (settleRequest nanoid) s

def taskRequested (requestId requesterId taskType : String) (s : TaskBroker) : TaskBroker :=
  let s := { s with requested := s.requested ++ [requestId] }
  if s.isDraining then
    s.messageRequester requesterId (.requestexpired requesterId requestId "draining")
  else
    settleTasks nanoid env { s with
      pendingTaskRequests := s.pendingTaskRequests ++
        [⟨requestId, requesterId, taskType, false, s.objects⟩]
      objects := s.objects + 1 }

def taskOffered (offer : TaskOffer) (s : TaskBroker) : TaskBroker :=
  settleTasks nanoid env { s with
    offered := s.offered ++ [offer.offerId]
    pendingTaskOffers := s.pendingTaskOffers ++ [offer] }

def handleRequestTimeout (requestId : String) (s : TaskBroker) : TaskBroker :=
  match s.pendingTaskRequests.find? fun request => request.requestId = requestId with
  | none => s
  | some request =>
    let s := s.flagSilentRunners env request.taskType
    messageRequester request.requesterId (.requestexpired request.requesterId requestId "timeout")
      { s with
        pendingTaskRequests := s.pendingTaskRequests.eraseP fun request =>
          request.requestId = requestId }

end Matching

/-! ## Callbacks of a handshake -/

/-- What a handshake waits for changes. -/
def settleStage (taskId : String) (settle : Stage → Stage) (s : TaskBroker) : TaskBroker :=
  match s.attempts.get? taskId with
  | none => s
  | some attempt =>
    { s with attempts := s.attempts.set taskId { attempt with stage := settle attempt.stage } }

def settleRunnerPromise (outcome : AcceptPromise Unit) : Stage → Stage
  | .offering promise => .offering (promise.settle outcome)
  | .awaitingRunner promise => .awaitingRunner (promise.settle outcome)
  | stage => stage

def settleRequesterPromise (outcome : AcceptPromise String) : Stage → Stage
  | .readying promise => .readying (promise.settle outcome)
  | .awaitingRequester promise => .awaitingRequester (promise.settle outcome)
  | stage => stage

/-- The runner answers, or is gone. -/
def settleRunner (taskId : String) (outcome : AcceptPromise Unit) (s : TaskBroker) : TaskBroker :=
  match s.runnerAcceptRejects.get? taskId with
  | none => s
  | some runnerId =>
    { s.settleStage taskId (settleRunnerPromise outcome) with
      consecutiveAcceptTimeouts := s.consecutiveAcceptTimeouts.delete runnerId
      runnerAcceptRejects := s.runnerAcceptRejects.delete taskId }

def handleRunnerAccept (taskId : String) : TaskBroker → TaskBroker :=
  settleRunner taskId (.resolved ())

def handleRunnerReject (taskId reason : String) : TaskBroker → TaskBroker :=
  settleRunner taskId (.rejected (.taskReject reason))

def handleRunnerDeferred (taskId : String) : TaskBroker → TaskBroker :=
  settleRunner taskId (.rejected .taskDeferred)

def settleRequester (taskId : String) (outcome : AcceptPromise String) (s : TaskBroker) :
    TaskBroker :=
  if taskId ∈ s.requesterAcceptRejects then
    { s.settleStage taskId (settleRequesterPromise outcome) with
      requesterAcceptRejects := s.requesterAcceptRejects.delete taskId }
  else s

def handleRequesterAccept (taskId settings : String) : TaskBroker → TaskBroker :=
  settleRequester taskId (.resolved settings)

def handleRequesterReject (taskId reason : String) : TaskBroker → TaskBroker :=
  settleRequester taskId (.rejected (.taskReject reason))

/-! ## Both sides come and go -/

def registerRunner (runner : TaskRunner) (s : TaskBroker) : TaskBroker :=
  messageRunner runner.id (.runnerregistered runner.id)
    { s with knownRunners := s.knownRunners.set runner.id runner }

def deregisterRunner (runnerId error : String) (s : TaskBroker) : TaskBroker :=
  let s := discardOffersFrom runnerId { s with
    knownRunners := s.knownRunners.delete runnerId
    consecutiveAcceptTimeouts := s.consecutiveAcceptTimeouts.delete runnerId
    silentRunnersSince := s.silentRunnersSince.delete runnerId }
  let waiting := (s.runnerAcceptRejects.entries.filter fun entry => entry.2 = runnerId).map Prod.fst
  let s := waiting.foldl (fun s taskId => s.handleRunnerReject taskId
    ("The Task Runner (" ++ runnerId ++ ") has disconnected: " ++ error)) s
  s.failTasks (s.getInFlightTaskIds runnerId) error

def registerRequester (requesterId : String) (s : TaskBroker) : TaskBroker :=
  { s with requesters := s.requesters.insert requesterId }

def deregisterRequester (requesterId : String) (s : TaskBroker) : TaskBroker :=
  { s with requesters := s.requesters.delete requesterId }

/-! ## A handshake goes on -/

section Handshake

variable (nanoid : ℕ → String) (config : TaskRunnersConfig) (env : Surroundings)

def putStage (taskId : String) (stage : Stage) : TaskBroker → TaskBroker :=
  settleStage taskId fun _ => stage

/-- The handshake is over. -/
def finish (taskId : String) (s : TaskBroker) : TaskBroker :=
  { s with attempts := s.attempts.delete taskId }

/-- The runner did not take the task. Only the timers of the request differ otherwise. -/
def runnerFailed (taskId : String) (attempt : Attempt) (error : BrokerError) (s : TaskBroker) :
    TaskBroker :=
  let s := s.setAcceptInProgress attempt.request false
  match error with
  | .taskReject _ => (s.finish taskId).settleTasks nanoid env
  | .runnerAcceptTimeout =>
    let runnerId := attempt.offer.runnerId
    let s := { s with runnerAcceptRejects := s.runnerAcceptRejects.delete taskId }
    (s.putStage taskId .dropping).messageRunner runnerId
      (.taskcancel runnerId taskId "Acknowledgement window elapsed")
  | _ => s.finish taskId

/-- The runner has been told that it took too long. -/
def runnerDropped (taskId : String) (attempt : Attempt) (s : TaskBroker) : TaskBroker :=
  let s := (s.finish taskId).discardOffersFrom attempt.offer.runnerId
  (s.flagRunnerIfUnresponsive env config attempt.offer.runnerId).settleTasks nanoid env

/-- The task is cancelled, and the handshake ends after that. -/
def giveUp (taskId reason : String) (s : TaskBroker) : TaskBroker :=
  (s.cancelTask taskId reason).putStage taskId .cancelling

/-- The runner has the task: the requester is told, if its request is still there. -/
def runnerAccepted (taskId : String) (attempt : Attempt) (s : TaskBroker) : TaskBroker :=
  let task := ⟨taskId, attempt.offer.runnerId, attempt.request.requesterId,
    attempt.offer.taskType, false⟩
  let s := { s with tasks := s.tasks.set taskId task }
  let isIt (request : TaskRequest) : Bool := request.requestId = attempt.request.requestId
  if s.pendingTaskRequests.any isIt then
    let s := { s with
      pendingTaskRequests := s.pendingTaskRequests.eraseP isIt
      requesterAcceptRejects := s.requesterAcceptRejects.insert taskId }
    (s.putStage taskId (.readying .pending)).messageRequester attempt.request.requesterId
      (.taskready attempt.request.requesterId attempt.request.requestId taskId)
  else s.giveUp taskId "Task request expired"

/-- The requester did not take the task, or the settings did not get to the runner. -/
def requesterFailed (taskId : String) (error : BrokerError) (s : TaskBroker) : TaskBroker :=
  match error with
  | .taskReject reason => s.giveUp taskId reason
  | .runnerUnreachable => s.finish taskId
  | .requesterAcceptTimeout =>
    giveUp taskId "Requester took too long to acknowledge the task"
      { s with requesterAcceptRejects := s.requesterAcceptRejects.delete taskId }
  | _ => s.giveUp taskId "Unknown reason"

def getRunner (s : TaskBroker) (runnerId : String) : Except BrokerError Unit :=
  if runnerId ∉ s.knownRunners.keys then
    .error (.unexpected ("Cannot find runner, failed to find runner (" ++ runnerId ++ ")"))
  else if ¬ env.isRunnerReachable runnerId then .error .runnerUnreachable
  else .ok ()

def errorText : BrokerError → String
  | .unexpected message => message
  | .taskReject reason => reason
  | _ => "The task runner cannot be reached"

def sendTaskSettings (taskId settings : String) (s : TaskBroker) : TaskBroker :=
  match s.tasks.get? taskId with
  | none => s.finish taskId
  | some task =>
    match s.getRunner env task.runnerId with
    | .error error => (s.failTask taskId (errorText error)).putStage taskId (.failing error)
    | .ok _ => s.putStage taskId (.arming settings)

def armTask (taskId settings : String) (s : TaskBroker) : TaskBroker :=
  match s.tasks.get? taskId with
  | none => s.finish taskId
  | some task =>
    let s := { s with tasks := s.tasks.set taskId { task with timeout := true } }
    (s.putStage taskId .sendingSettings).messageRunner task.runnerId
      (.tasksettings task.runnerId taskId settings)

/-- The handshake of a task goes on when the callback that it waits for has returned or failed, or
when its promise is settled. -/
def advance (taskId : String) (callback : Except BrokerError Unit) (s : TaskBroker) :
    Option TaskBroker :=
  match s.attempts.get? taskId with
  | none => none
  | some attempt =>
    match attempt.stage, callback with
    | .offering promise, .ok _ => some (s.putStage taskId (.awaitingRunner promise))
    | .offering _, .error error => some (s.runnerFailed nanoid env taskId attempt error)
    | .awaitingRunner .pending, _ => none
    | .awaitingRunner (.resolved _), _ => some (s.runnerAccepted taskId attempt)
    | .awaitingRunner (.rejected error), _ => some (s.runnerFailed nanoid env taskId attempt error)
    | .dropping, .ok _ => some (s.runnerDropped nanoid config env taskId attempt)
    | .dropping, .error _ => some (s.finish taskId)
    | .readying promise, .ok _ => some (s.putStage taskId (.awaitingRequester promise))
    | .readying _, .error error => some (s.requesterFailed taskId error)
    | .awaitingRequester .pending, _ => none
    | .awaitingRequester (.resolved settings), _ => some (s.sendTaskSettings env taskId settings)
    | .awaitingRequester (.rejected error), _ => some (s.requesterFailed taskId error)
    | .failing error, .ok _ => some (s.requesterFailed taskId error)
    | .failing _, .error error => some (s.requesterFailed taskId error)
    | .arming settings, _ => some (s.armTask taskId settings)
    | .sendingSettings, .ok _ => some (s.finish taskId)
    | .sendingSettings, .error error => some (s.requesterFailed taskId error)
    | .cancelling, _ => some (s.finish taskId)

/-! ## Messages that come in -/

def resetAcceptTimeoutsOnOwnTask (runnerId taskId : String) (s : TaskBroker) : TaskBroker :=
  if (s.tasks.get? taskId).any fun task => task.runnerId = runnerId then
    { s with consecutiveAcceptTimeouts := s.consecutiveAcceptTimeouts.delete runnerId }
  else s

/-- A question of the runner goes to the requester of its task. -/
def askRequester (taskId : String) (message : String → BrokerMessage) (s : TaskBroker) :
    TaskBroker :=
  match s.tasks.get? taskId with
  | none => s
  | some task => s.messageRequester task.requesterId (message task.requesterId)

/-- An answer of the requester goes to the runner of the task, or the task fails. -/
def answerRunner (taskId : String) (message : String → BrokerMessage) (s : TaskBroker) :
    TaskBroker :=
  match s.tasks.get? taskId with
  | none => s
  | some task =>
    match s.getRunner env task.runnerId with
    | .error error => s.failTask taskId (errorText error)
    | .ok _ => s.messageRunner task.runnerId (message task.runnerId)

def onRunnerMessage (runnerId : String) (message : RunnerMessage) (s : TaskBroker) : TaskBroker :=
  if runnerId ∉ s.knownRunners.keys then s
  else
    let s := { s with silentRunnersSince := s.silentRunnersSince.delete runnerId }
    match message with
    | .taskaccepted taskId => s.handleRunnerAccept taskId
    | .taskrejected taskId reason => s.handleRunnerReject taskId reason
    | .taskdeferred taskId => s.handleRunnerDeferred taskId
    | .taskoffer offerId taskType validFor =>
      s.taskOffered nanoid env ⟨offerId, runnerId, taskType, validFor,
        if validFor = -1 then 0 else env.now + validFor * 1000000⟩
    | .taskdone taskId data =>
      (s.resetAcceptTimeoutsOnOwnTask runnerId taskId).taskDoneHandler taskId data
    | .taskerror taskId error =>
      (s.resetAcceptTimeoutsOnOwnTask runnerId taskId).taskErrorHandler taskId error
    | .taskdatarequest taskId requestId params =>
      s.askRequester taskId (.taskdatarequest · taskId requestId params)
    | .nodetypesrequest taskId requestId params =>
      s.askRequester taskId (.nodetypesrequest · taskId requestId params)
    | .rpc taskId callId name params => s.askRequester taskId (.rpc · taskId callId name params)
    | .info => s

def onRequesterMessage (requesterId : String) (message : RequesterMessage) (s : TaskBroker) :
    TaskBroker :=
  match message with
  | .tasksettings taskId settings => s.handleRequesterAccept taskId settings
  | .taskcancel taskId reason => s.cancelTask taskId reason
  | .taskrequest requestId taskType => s.taskRequested nanoid env requestId requesterId taskType
  | .taskdataresponse taskId requestId data =>
    s.answerRunner env taskId (.taskdataresponse · taskId requestId data)
  | .nodetypesresponse taskId requestId nodeTypes =>
    s.answerRunner env taskId (.nodetypes · taskId requestId nodeTypes)
  | .rpcresponse taskId callId data => s.answerRunner env taskId (.rpcresponse · taskId callId data)

/-- The timer of a task fires: an external runner is told first. -/
def handleTaskTimeout (taskId : String) (s : TaskBroker) : Option TaskBroker :=
  match s.tasks.get? taskId with
  | none => none
  | some task =>
    if ¬ task.timeout then none
    else if config.isExternal then
      some (messageRunner task.runnerId
        (.taskcancel task.runnerId taskId "Task execution timed out")
        { s with expiring := s.expiring ++ [taskId] })
    else some (s.taskErrorHandler taskId "Task execution timed out")

/-- The external runner has been told, or could not be. -/
def taskTimedOut (taskId : String) (callback : Except BrokerError Unit) (s : TaskBroker) :
    Option TaskBroker :=
  if taskId ∉ s.expiring then none
  else
    let s := { s with expiring := s.expiring.erase taskId }
    match callback with
    | .ok _ => some (s.taskErrorHandler taskId "Task execution timed out")
    | .error _ => some s

end Handshake

end TaskBroker

/-! ## The system -/

inductive Event
  | registerRunner (runner : TaskRunner)
  | deregisterRunner (runnerId error : String)
  /-- A runner is back before it has been deregistered. -/
  | failTasks (taskIds : List String) (error : String)
  | registerRequester (requesterId : String)
  | deregisterRequester (requesterId : String)
  | runnerMessage (runnerId : String) (message : RunnerMessage)
  | requesterMessage (requesterId : String) (message : RequesterMessage)
  | requesterReject (taskId reason : String)
  | requestTimeout (requestId : String)
  | runnerAcceptTimeout (taskId : String)
  | requesterAcceptTimeout (taskId : String)
  | taskTimeout (taskId : String)
  | taskTimedOut (taskId : String) (callback : Except BrokerError Unit)
  | advance (taskId : String) (callback : Except BrokerError Unit)
  | startDraining

section System

variable (nanoid : ℕ → String) (config : TaskRunnersConfig)

open TaskBroker in
/-- What an event leads to, if it is possible. -/
def next (s : TaskBroker) (label : Surroundings × Event) : Option TaskBroker :=
  let env := label.1
  match label.2 with
  | .registerRunner runner => some (s.registerRunner runner)
  | .deregisterRunner runnerId error => some (s.deregisterRunner runnerId error)
  | .failTasks taskIds error => some (s.failTasks taskIds error)
  | .registerRequester requesterId => some (s.registerRequester requesterId)
  | .deregisterRequester requesterId => some (s.deregisterRequester requesterId)
  | .runnerMessage runnerId message => some (s.onRunnerMessage nanoid env runnerId message)
  | .requesterMessage requesterId message =>
    some (s.onRequesterMessage nanoid env requesterId message)
  | .requesterReject taskId reason => some (s.handleRequesterReject taskId reason)
  | .requestTimeout requestId => some (s.handleRequestTimeout env requestId)
  | .runnerAcceptTimeout taskId =>
    some (s.settleStage taskId (settleRunnerPromise (.rejected .runnerAcceptTimeout)))
  | .requesterAcceptTimeout taskId =>
    some (s.settleStage taskId (settleRequesterPromise (.rejected .requesterAcceptTimeout)))
  | .taskTimeout taskId => s.handleTaskTimeout config taskId
  | .taskTimedOut taskId callback => s.taskTimedOut taskId callback
  | .advance taskId callback => s.advance nanoid config env taskId callback
  | .startDraining => some { s with isDraining := true }

/-- The runs of the broker, from its start. -/
def broker : Transition.System TaskBroker (Surroundings × Event) where
  init s := s = .initial
  step s label t := next nanoid config s label = some t

end System

end N8n.TaskRunners
