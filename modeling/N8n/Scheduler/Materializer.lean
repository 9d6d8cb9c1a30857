import N8n.Common.JsonValue
import N8n.Scheduler.Recurrence

/-!
# The materializer

A pass claims the jobs whose next run is due, turns each into the occurrences to record, records
them, retires what a catch-up run supersedes and advances the jobs. A job that cannot be planned is
deferred.

## Main definitions

* `ScheduledJob`: a row of `scheduled_job`
* `applyMisfirePolicy`: which due instants are recorded
* `planOccurrences`, `planOrDeferJob`: what one pass makes of a job
* `applyCoalesceOwnerPolicy`: one catch-up run for each owner
* `materialize`, `advanceMany`: a whole pass
-/

namespace N8n.Scheduler

open Failure

/-! ## Jobs -/

inductive ScheduledJobMisfirePolicy
  | coalesce
  | coalesceOwner
  | skip
  /-- A policy that this version does not know. -/
  | other (name : String)
  deriving DecidableEq

structure ScheduledJob where
  id : ℕ
  taskType : String
  payload : JsonValue
  kind : ScheduledJobKind
  cronExpression : Option String
  timezone : Option String
  intervalSeconds : Option ℤ
  fireAt : Option ℤ
  recurrenceUnit : Option RecurringCronUnit
  recurrenceSize : Option ℤ
  enabled : Bool
  nextRunAt : Option ℤ
  lastFiredAt : Option ℤ
  maxAttempts : ℤ
  misfirePolicy : ScheduledJobMisfirePolicy
  misfireGraceSeconds : ℕ
  ownerKey : String

/-- The field of a row that its kind guarantees is set. -/
def required {α : Type} (job : ScheduledJob) (key : String) (value : Option α) :
    Except SchedulerError α :=
  match value with
  | some value => pure value
  | none => throw (.corruptStorageRow ("scheduled_job " ++ toString job.id ++ " of kind '" ++
      job.kind.name ++ "' is missing '" ++ key ++ "'"))

def resolveCron (job : ScheduledJob) (defaultTimezone : String) :
    Except SchedulerError CronSchedule := do
  let cronExpression ← required job "cronExpression" job.cronExpression
  pure ⟨cronExpression, some (job.timezone.getD defaultTimezone)⟩

def resolveRecurringCron (job : ScheduledJob) (defaultTimezone : String) :
    Except SchedulerError RecurringCronSchedule := do
  let schedule ← resolveCron job defaultTimezone
  let recurrenceUnit ← required job "recurrenceUnit" job.recurrenceUnit
  let recurrenceSize ← required job "recurrenceSize" job.recurrenceSize
  pure { schedule with recurrenceUnit, recurrenceSize }

def resolveSchedule (job : ScheduledJob) (defaultTimezone : String) :
    Except SchedulerError Schedule :=
  match job.kind with
  | .cron => Schedule.cron <$> resolveCron job defaultTimezone
  | .recurringCron => Schedule.recurringCron <$> resolveRecurringCron job defaultTimezone
  | .interval => Schedule.interval <$> required job "intervalSeconds" job.intervalSeconds
  | .oneOff => Schedule.oneOff <$> required job "fireAt" job.fireAt
  | .other name => throw (.corruptStorageRow ("scheduled_job " ++ toString job.id ++
      " has unknown kind '" ++ name ++ "'"))

/-! ## Planning -/

structure MaterializerOptions where
  windowSeconds : ℕ
  lookaheadSeconds : ℕ
  maxPerJob : ℕ
  batchSize : ℕ
  planRetrySeconds : ℕ
  defaultTimezone : String

/-- The instants to record, oldest first, and the one among them that stands in for a backlog. -/
def applyMisfirePolicy (due : List ℤ) (now : ℤ) (job : ScheduledJob) (truncated : Bool) :
    Except SchedulerError (List ℤ × Option ℤ) :=
  let graceDeadline := now - toMilliseconds job.misfireGraceSeconds
  let behind := due.filter (· ≤ now)
  let ahead := due.drop behind.length
  match behind with
  | [] => pure (due, none)
  | oldest :: later =>
    if graceDeadline < oldest then pure (due, none)
    else
      match job.misfirePolicy with
      | .coalesce | .coalesceOwner =>
        if truncated ∧ ahead = [] then pure ([], none)
        else
          let catchUpAt := (oldest :: later).getLast (List.cons_ne_nil _ _)
          pure (catchUpAt :: ahead, some catchUpAt)
      | .skip => pure (ahead, none)
      | .other name => throw (.corruptStorageRow ("scheduled_job " ++ toString job.id ++
          " has unknown misfire policy '" ++ name ++ "'"))

structure OccurrencePlan where
  occurrences : List ℤ
  skippedOccurrences : ℕ
  catchUpAt : Option ℤ
  retireBefore : Option ℤ
  nextRunAt : Option ℤ
  lastFiredAt : Option ℤ
  deriving DecidableEq

/-- The last instant that a pass may record ahead of time. -/
def MaterializerOptions.windowEnd (options : MaterializerOptions) (now : ℤ) : ℤ :=
  now + toMilliseconds options.windowSeconds

/-- The instants that a pass consumes, and the next one. -/
def dueOccurrences (calendar : Calendar) (schedule : Schedule) (first now : ℤ)
    (options : MaterializerOptions) : Except SchedulerError (List ℤ × Option ℤ) := do
  let fires ← occurrencesFrom calendar schedule
  BoundedWalk.walk fires (options.windowEnd now) options.maxPerJob first

def planOccurrences (calendar : Calendar) (job : ScheduledJob) (now : ℤ)
    (options : MaterializerOptions) : Except SchedulerError OccurrencePlan := do
  let schedule ← resolveSchedule job options.defaultTimezone
  match job.nextRunAt with
  | none => pure ⟨[], 0, none, none, none, job.lastFiredAt⟩
  | some first =>
    let (due, fire) ← dueOccurrences calendar schedule first now options
    -- the cap, not the window, ended the walk
    let truncated := fire.any (· ≤ options.windowEnd now)
    let (occurrences, catchUpAt) ← applyMisfirePolicy due now job truncated
    pure {
      occurrences
      skippedOccurrences := due.length - occurrences.length
      catchUpAt
      retireBefore := catchUpAt
      nextRunAt := fire
      lastFiredAt := due.getLast?.or job.lastFiredAt }

structure PlannedJob where
  job : ScheduledJob
  plan : OccurrencePlan

/-- When a job that could not be planned is tried again. -/
def MaterializerOptions.retryAt (options : MaterializerOptions) (now : ℤ) : ℤ :=
  now + toMilliseconds options.planRetrySeconds

/-- Plan a job; a job that cannot be planned is deferred. -/
def planOrDeferJob (calendar : Calendar) (job : ScheduledJob) (now : ℤ)
    (options : MaterializerOptions) : PlannedJob × Bool :=
  match planOccurrences calendar job now options with
  | .ok plan => (⟨job, plan⟩, false)
  | .error _ => (⟨job, ⟨[], 0, none, none, some (options.retryAt now), job.lastFiredAt⟩⟩, true)

/-! ## Owner groups -/

/-- The catch-up run of a job whose policy is `coalesceOwner`. -/
def ownedCatchUp (entry : PlannedJob) : Option ℤ :=
  if entry.job.misfirePolicy = .coalesceOwner then entry.plan.catchUpAt else none

/-- The later catch-up run wins, and of two at the same instant the one of the lower job id. -/
def latestThenLowestId (current candidate : PlannedJob × ℤ) : PlannedJob × ℤ :=
  if candidate.2 ≠ current.2 then
    if candidate.2 > current.2 then candidate else current
  else if candidate.1.job.id < current.1.job.id then candidate else current

/-- The members of an owner group, with their catch-up runs. -/
def membersOfOwner (planned : List PlannedJob) (ownerKey : String) : List (PlannedJob × ℤ) :=
  planned.filterMap fun entry =>
    if entry.job.ownerKey = ownerKey then (ownedCatchUp entry).map (entry, ·) else none

def isLoser (planned : List PlannedJob) (entry : PlannedJob) : Bool :=
  match ownedCatchUp entry, membersOfOwner planned entry.job.ownerKey with
  | some _, member :: members => (members.foldl latestThenLowestId member).1.job.id ≠ entry.job.id
  | _, _ => false

def dropLateRun (entry : PlannedJob) : PlannedJob :=
  { entry with
    plan := { entry.plan with
      occurrences := entry.plan.occurrences.drop 1
      catchUpAt := none } }

/-- Claimed jobs have different ids, so an id names an entry. -/
def applyCoalesceOwnerPolicy (planned : List PlannedJob) : List PlannedJob :=
  planned.map fun entry => if isLoser planned entry then dropLateRun entry else entry

/-! ## A pass -/

structure DueJobs where
  now : ℤ
  jobs : List ScheduledJob

structure NewOccurrence where
  jobId : ℕ
  taskType : String
  payload : JsonValue
  scheduledFor : ℤ
  runAt : ℤ
  maxAttempts : ℤ
  missedAfter : ℤ

def toNewOccurrences (planned : List PlannedJob) (now : ℤ) : List NewOccurrence :=
  planned.flatMap fun ⟨job, plan⟩ => plan.occurrences.map fun when =>
    let runAt := if plan.catchUpAt = some when then now else when
    let visibleAt := max runAt now
    ⟨job.id, job.taskType, job.payload, when, runAt, job.maxAttempts,
      visibleAt + toMilliseconds job.misfireGraceSeconds⟩

/-- The jobs with an instant before which their pending occurrences are superseded. -/
def toSuperseded (planned : List PlannedJob) : List (ℕ × ℤ) :=
  planned.filterMap fun ⟨job, plan⟩ => plan.retireBefore.map (job.id, ·)

/-- What a pass does with the claimed jobs. -/
structure Materialization where
  planned : List PlannedJob
  rows : List NewOccurrence
  superseded : List (ℕ × ℤ)
  deferredJobs : ℕ

def materialize (calendar : Calendar) (options : MaterializerOptions) (claimed : DueJobs) :
    Materialization :=
  let plans := claimed.jobs.map fun job => planOrDeferJob calendar job claimed.now options
  let planned := applyCoalesceOwnerPolicy (plans.map Prod.fst)
  { planned
    rows := toNewOccurrences planned claimed.now
    superseded := toSuperseded planned
    deferredJobs := (plans.filter Prod.snd).length }

/-- The enabled jobs whose next run is due within the lookahead, earliest first. -/
def claimDue (jobs : List ScheduledJob) (now : ℤ) (limit : ℕ) (lookaheadMs : ℤ) :
    List ScheduledJob :=
  ((jobs.filter fun job => job.enabled ∧ job.nextRunAt.any (· ≤ now + lookaheadMs)).mergeSort
    fun a b => a.nextRunAt.getD 0 ≤ b.nextRunAt.getD 0).take limit

/-- A row after a pass that planned it. -/
def ScheduledJob.advance (job : ScheduledJob) (plan : OccurrencePlan) : ScheduledJob :=
  { job with nextRunAt := plan.nextRunAt, lastFiredAt := plan.lastFiredAt }

def advanceMany (jobs : List ScheduledJob) (planned : List PlannedJob) : List ScheduledJob :=
  jobs.map fun job =>
    match planned.find? fun entry => entry.job.id = job.id with
    | some entry => job.advance entry.plan
    | none => job

end N8n.Scheduler
