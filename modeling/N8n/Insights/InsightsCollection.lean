import Mathlib.Data.Rat.Floor
import N8n.Foundations.OrderedMap
import N8n.Foundations.Transition

/-!
# Collecting insights

When a workflow has finished, a service puts a few insights into a buffer. The buffer is flushed to
the database by a timer, when it is full, and on shutdown: it is copied and cleared, the copy is
saved in several steps, and is put back when one of them fails.

## Main definitions

* `BufferedInsight`, `insightsOf`: what is collected of a workflow execution
* `Database`: the owners of the workflows, and the metadata of the insights
* `Flush`: a flush in progress, and how far it is
* `InsightsCollection`: the service, with what it has collected, inserted and dropped so far
* `collection`: the service as a transition system
-/

namespace N8n.Insights

/-! ## What is collected -/

inductive ExecutionStatus
  | success | crashed | error | canceled | new | running | unknown | waiting
deriving DecidableEq, Repr

inductive WorkflowExecuteMode
  | cli | error | retry | trigger | webhook | evaluation | integrated | internal | manual | chat
  | agent
deriving DecidableEq, Repr

inductive WorkflowExecutionSource
  | user | instanceAi
deriving DecidableEq, Repr

def shouldSkipStatus : ExecutionStatus → Bool
  | .success | .crashed | .error => false
  | .canceled | .new | .running | .unknown | .waiting => true

def shouldSkipMode : WorkflowExecuteMode → Bool
  | .cli | .error | .retry | .trigger | .webhook | .evaluation => false
  | .integrated | .internal | .manual | .chat | .agent => true

def isStatusRootExecution : ExecutionStatus → Bool
  | .success | .crashed | .error => true
  | .canceled | .new | .running | .unknown | .waiting => false

def isModeRootExecution : WorkflowExecuteMode → Bool
  | .cli | .retry | .trigger | .webhook | .evaluation => true
  | .integrated | .error | .internal | .manual | .chat | .agent => false

/-- A finished workflow execution. Times are in milliseconds. -/
structure WorkflowExecuteAfterContext where
  workflowId : String
  workflowName : String
  timeSavedPerExecution : Option ℚ
  /-- `timeSavedMode` is `dynamic`. -/
  timeSavedDynamic : Bool
  mode : WorkflowExecuteMode
  status : ExecutionStatus
  source : Option WorkflowExecutionSource
  startedAt : ℤ
  stoppedAt : Option ℤ
  /-- For every node, the minutes that its runs have saved. -/
  timeSaved : List (String × List (Option ℚ))
deriving DecidableEq, Repr

def isBillableExecution (ctx : WorkflowExecuteAfterContext) : Bool :=
  ctx.source ≠ some .instanceAi ∧ isModeRootExecution ctx.mode ∧ isStatusRootExecution ctx.status

inductive InsightType
  | success | failure | billable | runtimeMs | timeSavedMin
deriving DecidableEq, Repr

def MIN_RUNTIME : ℤ := 0

def MAX_RUNTIME : ℤ := 2 ^ 31 - 1

def integerValueForInsightsRaw (value : ℚ) : ℤ := ⌊value + 1 / 2⌋

/-- An insight in the buffer. The buffer is a set of objects, told apart by their `id`. -/
structure BufferedInsight where
  id : ℕ
  type : InsightType
  value : ℚ
  timestamp : ℕ
  workflowId : String
  workflowName : String
deriving DecidableEq, Repr

def extractTimeSavedFromNodes (ctx : WorkflowExecuteAfterContext) : ℚ :=
  (ctx.timeSaved.map fun node => (node.2.reduceOption).sum).sum

def calculateTimeSaved (ctx : WorkflowExecuteAfterContext) : ℚ :=
  if ctx.timeSavedDynamic then extractTimeSavedFromNodes ctx else ctx.timeSavedPerExecution.getD 0

/-- What is added to the buffer for a finished execution, as type and value. -/
def insightsOf (ctx : WorkflowExecuteAfterContext) : List (InsightType × ℚ) :=
  let runtime (stoppedAt : ℤ) : ℤ := min (max (stoppedAt - ctx.startedAt) MIN_RUNTIME) MAX_RUNTIME
  [(if ctx.status = .success then InsightType.success else .failure, 1)] ++
  (if isBillableExecution ctx then [(InsightType.billable, 1)] else []) ++
  (ctx.stoppedAt.map fun stoppedAt => (InsightType.runtimeMs, (runtime stoppedAt : ℚ))).toList ++
  (if ctx.status = .success ∧ ctx.mode ≠ .error then
    [(InsightType.timeSavedMin, calculateTimeSaved ctx)] else [])

/-! ## The database -/

structure Project where
  projectId : String
  projectName : String
deriving DecidableEq, Repr

structure InsightsMetadata where
  metaId : ℕ
  /-- `none` once the workflow is deleted. -/
  workflowId : Option String
  workflowName : String
  project : Project
deriving DecidableEq, Repr

structure MetadataToUpsert where
  workflowId : String
  workflowName : String
  project : Project
deriving DecidableEq, Repr

structure InsightsRaw where
  metaId : ℕ
  type : InsightType
  value : ℤ
  timestamp : ℕ
deriving DecidableEq, Repr

/-- The projects that own the workflows, and the metadata of the insights. -/
structure Database where
  owners : OrderedMap String Project
  metadata : List InsightsMetadata

namespace Database

variable (db : Database)

def find (workflowIds : List String) : List (String × Project) :=
  db.owners.entries.filter fun owner => owner.1 ∈ workflowIds

/-- Insert a row, or update the one of the same workflow. -/
def upsertOne (row : MetadataToUpsert) : Database :=
  if db.metadata.any fun m => m.workflowId = some row.workflowId then
    { db with
      metadata := db.metadata.map fun m =>
        if m.workflowId = some row.workflowId then
          { m with workflowName := row.workflowName, project := row.project }
        else m }
  else
    { db with
      metadata := db.metadata ++
        [⟨db.metadata.length + 1, some row.workflowId, row.workflowName, row.project⟩] }

def upsert (rows : List MetadataToUpsert) : Database := rows.foldl upsertOne db

def findBy (workflowIds : List String) : List (String × InsightsMetadata) :=
  db.metadata.filterMap fun m => m.workflowId.bind fun workflowId =>
    if workflowId ∈ workflowIds then some (workflowId, m) else none

def share (workflowId : String) (project : Project) : Database :=
  { db with owners := db.owners.set workflowId project }

/-- The workflow is deleted. Its metadata stays, for the insights there are. -/
def deleteWorkflow (workflowId : String) : Database where
  owners := db.owners.delete workflowId
  metadata := db.metadata.map fun m =>
    if m.workflowId = some workflowId then { m with workflowId := none } else m

end Database

/-! ## Flushes -/

/-- How far a flush is. -/
inductive Saving
  /-- The owners are looked up. -/
  | finding
  | found (sharedWorkflows : List (String × Project))
  | upserting (metadataToUpsert : List MetadataToUpsert)
  /-- The metadata is read back. -/
  | reading (metadataToUpsert : List MetadataToUpsert)
  | read (upsertMetadata : List (String × InsightsMetadata))
  | inserting (events : List (BufferedInsight × InsightsRaw))
deriving DecidableEq, Repr

/-- A flush in progress, with its copy of the buffer. -/
structure Flush where
  id : ℕ
  events : List BufferedInsight
  saving : Saving
  /-- The workflows that had no owner when they were looked up, or were deleted since. -/
  unshared : List String
deriving DecidableEq, Repr

namespace Flush

variable (flush : Flush)

def workflowIds : List String := flush.events.map (·.workflowId)

/-- The name that `workflowIdNames` has for a workflow: that of its last event. -/
def workflowName (workflowId : String) : String :=
  ((flush.events.filter (·.workflowId = workflowId)).getLast?.map (·.workflowName)).getD ""

/-- The metadata that is not in the cache, or has another project or other names. -/
def metadataToUpsert (cachedMetadata : OrderedMap String InsightsMetadata)
    (sharedWorkflows : List (String × Project)) : List MetadataToUpsert :=
  sharedWorkflows.filterMap fun (workflowId, project) =>
    if (cachedMetadata.get? workflowId).all fun cached =>
        cached.project ≠ project ∨ cached.workflowName ≠ flush.workflowName workflowId then
      some ⟨workflowId, flush.workflowName workflowId, project⟩
    else none

/-- The rows to insert. An event without metadata has none. -/
def rows (cachedMetadata : OrderedMap String InsightsMetadata) :
    List (BufferedInsight × InsightsRaw) :=
  flush.events.filterMap fun event =>
    (cachedMetadata.get? event.workflowId).map fun metadata =>
      (event,
        ⟨metadata.metaId, event.type, integerValueForInsightsRaw event.value, event.timestamp⟩)

end Flush

/-! ## The service -/

/-- A call of `shutdown` that has not returned, with the flushes that it waits for. -/
structure Shutdown where
  flushesInProgress : List ℕ
  /-- The flush that it has started itself. -/
  final : Option ℕ
deriving DecidableEq, Repr

structure InsightsCollection where
  cachedMetadata : OrderedMap String InsightsMetadata
  bufferedInsights : List BufferedInsight
  flushInsightsRawBufferTimer : Bool
  isAsynchronouslySavingInsights : Bool
  flushesInProgress : List Flush
  isInitialized : Bool
  /-- For every handler that waits for its flush, the flush. -/
  handlers : List ℕ
  shutdown : Option Shutdown
  /-- The flush that shutdown has started was put back. -/
  finalFailed : Bool
  /-- The flushes started so far. -/
  flushes : ℕ
  database : Database
  collected : List BufferedInsight
  inserted : List (BufferedInsight × InsightsRaw)
  /-- The insights dropped so far, with the flush that has dropped them. -/
  dropped : List (BufferedInsight × Flush)

namespace InsightsCollection

/-- The service after `init`. -/
def initial (database : Database) : InsightsCollection where
  cachedMetadata := .empty
  bufferedInsights := []
  flushInsightsRawBufferTimer := true
  isAsynchronouslySavingInsights := true
  flushesInProgress := []
  isInitialized := true
  handlers := []
  shutdown := none
  finalFailed := false
  flushes := 0
  database
  collected := []
  inserted := []
  dropped := []

section Operations

variable (flushBatchSize : ℕ) (s : InsightsCollection)

def cancelScheduledFlushing : InsightsCollection := { s with flushInsightsRawBufferTimer := false }

def scheduleFlushing : InsightsCollection :=
  if s.isInitialized then { s with flushInsightsRawBufferTimer := true } else s

/-- `flushEvents` starts a flush. -/
def isFlushable : Bool := s.isInitialized ∧ s.bufferedInsights ≠ []

/-- What `flushEvents` does before it waits. -/
def flushEvents : InsightsCollection :=
  if s.isInitialized = false then s
  else if s.bufferedInsights = [] then s.scheduleFlushing
  else
    { s.cancelScheduledFlushing with
      bufferedInsights := []
      flushesInProgress := s.flushesInProgress ++ [⟨s.flushes, s.bufferedInsights, .finding, []⟩]
      flushes := s.flushes + 1 }

def flushIfFull : InsightsCollection :=
  if flushBatchSize ≤ s.bufferedInsights.length then s.flushEvents else s

def newInsights (ctx : WorkflowExecuteAfterContext) (timestamp : ℕ) : List BufferedInsight :=
  (insightsOf ctx).mapIdx fun i insight =>
    ⟨s.collected.length + i, insight.1, insight.2, timestamp, ctx.workflowId, ctx.workflowName⟩

def collect (insights : List BufferedInsight) : InsightsCollection :=
  { s with
    bufferedInsights := s.bufferedInsights ++ insights
    collected := s.collected ++ insights }

def handleWorkflowExecuteAfter (ctx : WorkflowExecuteAfterContext) (timestamp : ℕ) :
    InsightsCollection :=
  if s.isInitialized = false then s
  else if shouldSkipStatus ctx.status ∨ shouldSkipMode ctx.mode then s
  else if ctx.source = some .instanceAi then s
  else
    let s := s.collect (s.newInsights ctx timestamp)
    if s.isAsynchronouslySavingInsights = false then
      { s.flushEvents with handlers := s.handlers ++ [s.flushes] }
    else s.flushIfFull flushBatchSize

/-- What `shutdown` does before it waits. -/
def beginShutdown : InsightsCollection :=
  let s := { s.cancelScheduledFlushing with isAsynchronouslySavingInsights := false }
  { s.flushEvents with
    shutdown := some
      ⟨s.flushesInProgress.map (·.id), if s.isFlushable then some s.flushes else none⟩ }

/-- A flush ends: its events are put back if it has failed, and the timer is armed. -/
def settle (position : ℕ) (flush : Flush) (failed : Bool) : InsightsCollection :=
  let s :=
    if failed then
      { s with
        bufferedInsights := s.bufferedInsights ++ flush.events
        finalFailed :=
          s.finalFailed || s.shutdown.any fun shutdown => shutdown.final = some flush.id }
    else s
  { s.scheduleFlushing with flushesInProgress := s.flushesInProgress.eraseIdx position }

def goOn (position : ℕ) (flush : Flush) : InsightsCollection :=
  { s with flushesInProgress := s.flushesInProgress.set position flush }

/-- The events that have no row are dropped, and the others are inserted. -/
def complete (position : ℕ) (flush : Flush) (events : List (BufferedInsight × InsightsRaw)) :
    InsightsCollection :=
  { s with
    inserted := s.inserted ++ events
    dropped := s.dropped ++
      (flush.events.filter fun event => event ∉ events.map Prod.fst).map fun event => (event, flush)
  }.settle position flush false

/-- One step of a flush: a request to the database, which may fail, or what is done with its
result. -/
def advance (position : ℕ) (flush : Flush) (failed : Bool) : Option InsightsCollection :=
  match flush.saving, failed with
  | .found sharedWorkflows, false =>
    some (s.goOn position { flush with
      saving := .upserting (flush.metadataToUpsert s.cachedMetadata sharedWorkflows) })
  | .read upsertMetadata, false =>
    let cachedMetadata := upsertMetadata.foldl (fun cache m => cache.set m.1 m.2) s.cachedMetadata
    let s := { s with cachedMetadata }
    let events := flush.rows cachedMetadata
    if events = [] then some (s.complete position flush [])
    else some (s.goOn position { flush with saving := .inserting events })
  | .found _, true | .read _, true => none
  | .finding, false =>
    some (s.goOn position { flush with
      saving := .found (s.database.find flush.workflowIds)
      unshared := flush.workflowIds.filter fun workflowId =>
        (s.database.owners.get? workflowId).isNone })
  | .upserting metadataToUpsert, false =>
    some ({ s with database := s.database.upsert metadataToUpsert }.goOn position
      { flush with saving := .reading metadataToUpsert })
  | .reading metadataToUpsert, false =>
    some (s.goOn position { flush with
      saving := .read (s.database.findBy (metadataToUpsert.map (·.workflowId))) })
  | .inserting events, false => some (s.complete position flush events)
  | .finding, true | .upserting _, true | .reading _, true | .inserting _, true =>
    some (s.settle position flush true)

/-- A workflow is deleted, also for the flushes in progress. -/
def deleteWorkflow (workflowId : String) : InsightsCollection :=
  { s with
    database := s.database.deleteWorkflow workflowId
    flushesInProgress := s.flushesInProgress.map fun flush =>
      { flush with unshared := flush.unshared ++ [workflowId] } }

end Operations

end InsightsCollection

/-! ## Runs -/

inductive Event
  | workflowFinished (ctx : WorkflowExecuteAfterContext) (timestamp : ℕ)
  | timerFires
  | flushAdvances (position : ℕ) (failed : Bool)
  /-- A handler has waited for its flush, and looks at the buffer again. -/
  | handlerResumes (position : ℕ)
  | shutdown
  | shutdownReturns
  | shared (workflowId : String) (project : Project)
  | workflowDeleted (workflowId : String)

section Runs

variable (flushBatchSize : ℕ)

namespace InsightsCollection

def hasSettled (s : InsightsCollection) (flush : ℕ) : Bool :=
  s.flushesInProgress.all fun f => f.id ≠ flush

def next (s : InsightsCollection) : Event → Option InsightsCollection
  | .workflowFinished ctx timestamp =>
    some (s.handleWorkflowExecuteAfter flushBatchSize ctx timestamp)
  | .timerFires =>
    if s.flushInsightsRawBufferTimer then some s.cancelScheduledFlushing.flushEvents else none
  | .flushAdvances position failed =>
    s.flushesInProgress[position]?.bind fun flush => s.advance position flush failed
  | .handlerResumes position =>
    s.handlers[position]?.bind fun flush =>
      if s.hasSettled flush then
        some ({ s with handlers := s.handlers.eraseIdx position }.flushIfFull flushBatchSize)
      else none
  | .shutdown =>
    if s.isInitialized ∧ s.shutdown = none then some s.beginShutdown else none
  | .shutdownReturns =>
    s.shutdown.bind fun shutdown =>
      if s.isInitialized ∧ shutdown.flushesInProgress.all s.hasSettled ∧
          shutdown.final.all s.hasSettled then
        some { s with isInitialized := false }
      else none
  | .shared workflowId project =>
    some { s with database := s.database.share workflowId project }
  | .workflowDeleted workflowId => some (s.deleteWorkflow workflowId)

end InsightsCollection

def collection : Transition.System InsightsCollection Event where
  init s := ∃ database, s = .initial database
  step s e t := s.next flushBatchSize e = some t

end Runs

end N8n.Insights
