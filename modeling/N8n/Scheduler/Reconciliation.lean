import Mathlib.Data.List.Sort
import N8n.Scheduler.Materializer

/-!
# The reconciliation of the owners of scheduled jobs

A pass walks the owners of one owner type after the other, in pages, and asks the resolver of the
type which of them still exist. The jobs of an owner that is gone are quarantined, and deleted when
their quarantine has outlived its grace; those of an owner that exists after all are revived. A pass
that stops short says where the next one resumes.

Other instances change the jobs at any time between two operations of a pass. Owner types and owner
ids are of any linearly ordered types: the former are in the order of strings, the latter in that of
the database.

## Main definitions

* `OwnedJob`, `World`: a row of the table, and the table with what the passes have done
* `Surroundings`: what others do, and what resolvers, clocks and signals answer
* `sweepPage`, `sweepOwnerType`, `reconcile`: a page, an owner type, and a pass
* `passes`: passes one after the other
-/

namespace N8n.Scheduler

/-! ## The first run of a schedule -/

def cronNextRun (calendar : Calendar) (schedule : CronSchedule) (after : ℤ) :
    Except SchedulerError ℤ := do
  let cursor ← parseCron calendar schedule.cronExpression (← resolvedTimezone schedule)
  cursor after

def oneOffNextRun (fireAt after : ℤ) : Option ℤ :=
  if after < fireAt then some fireAt else none

def computeFirstRunAt (calendar : Calendar) (schedule : Schedule) («from» : ℤ) :
    Except SchedulerError (Option ℤ) := do
  validateSchedule calendar schedule
  match schedule with
  | .cron schedule => some <$> cronNextRun calendar schedule «from»
  | .recurringCron schedule => some <$> cronNextRun calendar schedule.toCronSchedule «from»
  | .interval intervalSeconds => pure (some (intervalNextRun intervalSeconds «from»))
  | .oneOff fireAt => pure (oneOffNextRun fireAt «from»)

namespace Reconciliation

/-! ## The table, and what surrounds a pass -/

/-- `T` and `O` are the owner types and the owner ids. -/
structure OwnedJob (T O : Type) extends ScheduledJob where
  ownerType : T
  ownerId : O
  createdAt : ℤ
  /-- When it was quarantined. -/
  orphanedAt : Option ℤ
  /-- The occurrences of it that are pending. -/
  pending : ℕ

/-- The options, as the scheduler checks them. -/
structure ReconciliationOptions where
  settleSeconds : ℕ
  quarantineGraceSeconds : ℕ
  batchSize : ℕ
  maxPagesPerPass : ℕ
  defaultTimezone : String
  settleSeconds_pos : 0 < settleSeconds
  quarantineGraceSeconds_pos : 0 < quarantineGraceSeconds
  batchSize_pos : 0 < batchSize
  maxPagesPerPass_pos : 0 < maxPagesPerPass

variable {T O : Type}

structure ReconciliationCursor (T O : Type) where
  ownerType : T
  /-- Exclusive lower bound on the owner ids. -/
  after : Option O
deriving DecidableEq

/-- How a page ended. -/
inductive PageOutcome
  | swept | drained | unfinished | failed
deriving DecidableEq

/-- What a pass does, in order. -/
inductive Entry (T O : Type)
  /-- The cursor is past every owner type, so that the pass starts over. -/
  | startedOver
  | unclaimedOwnerType (ownerType : T)
  /-- The resolver has answered. -/
  | asked (ownerType : T) (alive missing : List O)
  | resolverFailed (ownerType : T)
  | quarantined (ownerType : T) (jobs : ℕ)
  /-- Jobs are deleted, in a pass with the clock `now`. -/
  | deleted (ownerType : T) (now : ℤ) (jobs : List (OwnedJob T O))
  | revived (ownerType : T) (ownerIds : List O) (jobs : ℕ)
  | reviveClockFailed (jobId : ℕ) (error : SchedulerError)
  | page (ownerType : T) (outcome : PageOutcome)
  /-- The pass stops before an owner type, in which it was to start after a bound. -/
  | stoppedBefore (ownerType : T) (after : Option O)

/-- A reading of the table, and the bound on the age of the jobs where there is one. -/
structure Reading (T O : Type) where
  settledBefore : Option ℤ
  jobs : List (OwnedJob T O)

structure World (T O : Type) where
  jobs : List (OwnedJob T O)
  /-- The operations so far. -/
  tick : ℕ
  log : List (Entry T O)
  /-- The owners checked so far. -/
  checked : List (T × O)
  /-- What was read of the table when the walk asked for owner types and for owners. -/
  readings : List (Reading T O)

/-- What is not of the pass itself, by the number of operations before it. -/
structure Surroundings (T O : Type) where
  calendar : Calendar
  /-- What others do to the table. -/
  others : ℕ → List (OwnedJob T O) → List (OwnedJob T O)
  now : ℕ → ℤ
  aborted : ℕ → Bool
  /-- A resolver is registered for the owner type. -/
  claimed : ℕ → T → Bool
  /-- Which owners the resolver of a type finds, if it can tell. -/
  findExisting : ℕ → T → List O → Option (O → Bool)

namespace World

variable (w : World T O)

def logged (entries : List (Entry T O)) : World T O := { w with log := w.log ++ entries }

end World

/-! ## The operations of the store -/

section Store

variable (env : Surroundings T O)

/-- An operation begins: others may have changed the table. -/
def begun (w : World T O) : World T O :=
  { w with jobs := env.others w.tick w.jobs, tick := w.tick + 1 }

variable [LinearOrder T] [LinearOrder O]

/-- The owner types in the order in which a pass walks them. -/
def sortedOwnerTypes (jobs : List (OwnedJob T O)) : List T :=
  (jobs.map OwnedJob.ownerType).dedup.insertionSort (· ≤ ·)

def findOwnerTypes (w : World T O) : List T × World T O :=
  let w := begun env w
  (sortedOwnerTypes w.jobs, { w with readings := w.readings ++ [⟨none, w.jobs⟩] })

def sortedOwnerIds (jobs : List (OwnedJob T O)) (ownerType : T) (settledBefore : ℤ)
    (after : Option O) : List O :=
  ((jobs.filter fun job =>
    job.ownerType = ownerType ∧ job.createdAt ≤ settledBefore ∧
      ∀ bound ∈ after, bound < job.ownerId).map OwnedJob.ownerId).dedup.insertionSort (· ≤ ·)

def findOwnerIds (ownerType : T) (settledBefore : ℤ) (limit : ℕ) (after : Option O)
    (w : World T O) : List O × World T O :=
  let w := begun env w
  ((sortedOwnerIds w.jobs ownerType settledBefore after).take limit,
    { w with readings := w.readings ++ [⟨some settledBefore, w.jobs⟩] })

def toQuarantine (ownerType : T) (ownerIds : List O) (settledBefore : ℤ) (job : OwnedJob T O) :
    Bool :=
  job.ownerType = ownerType ∧ job.ownerId ∈ ownerIds ∧ job.orphanedAt = none ∧
    job.createdAt ≤ settledBefore

/-- The quarantined jobs of these owners have nothing pending afterwards, also those of before. -/
def quarantineByOwnerIds (ownerType : T) (ownerIds : List O) (orphanedAt settledBefore : ℤ)
    (w : World T O) : ℕ × World T O :=
  let w := begun env w
  let stamped := w.jobs.map fun job =>
    if toQuarantine ownerType ownerIds settledBefore job then
      { job with nextRunAt := none, orphanedAt := some orphanedAt }
    else job
  (w.jobs.countP (toQuarantine ownerType ownerIds settledBefore),
    { w with jobs := stamped.map fun job =>
        if job.ownerType = ownerType ∧ job.ownerId ∈ ownerIds ∧ job.orphanedAt ≠ none then
          { job with pending := 0 }
        else job })

def toDelete (ownerType : T) (ownerIds : List O) (quarantinedBefore : ℤ) (job : OwnedJob T O) :
    Bool :=
  job.ownerType = ownerType ∧ job.ownerId ∈ ownerIds ∧
    ∃ stamp ∈ job.orphanedAt, stamp ≤ quarantinedBefore

def deleteQuarantinedByOwnerIds (ownerType : T) (ownerIds : List O) (quarantinedBefore : ℤ)
    (w : World T O) : List (OwnedJob T O) × World T O :=
  let w := begun env w
  (w.jobs.filter (toDelete ownerType ownerIds quarantinedBefore),
    { w with jobs := w.jobs.filter fun job => !toDelete ownerType ownerIds quarantinedBefore job })

def findQuarantinedByOwnerIds (ownerType : T) (ownerIds : List O) (limit : ℕ) (w : World T O) :
    List (OwnedJob T O) × World T O :=
  let w := begun env w
  ((w.jobs.filter fun job =>
    job.ownerType = ownerType ∧ job.ownerId ∈ ownerIds ∧ job.orphanedAt ≠ none).take limit, w)

omit [LinearOrder T] [LinearOrder O] in
def liftQuarantine (id : ℕ) (nextRunAt : Option ℤ) (w : World T O) : ℕ × World T O :=
  let w := begun env w
  (w.jobs.countP fun job => job.id = id ∧ job.orphanedAt ≠ none,
    { w with jobs := w.jobs.map fun job =>
        if job.id = id ∧ job.orphanedAt ≠ none then { job with orphanedAt := none, nextRunAt }
        else job })

end Store

/-! ## A page of owners -/

structure SweepClock where
  now : ℤ
  settledBefore : ℤ
  quarantinedBefore : ℤ

structure SweepTotals where
  ownersChecked : ℕ
  quarantined : ℕ
  deleted : ℕ
  revived : ℕ
deriving DecidableEq

def noTotals : SweepTotals := ⟨0, 0, 0, 0⟩

def addTotals (first second : SweepTotals) : SweepTotals where
  ownersChecked := first.ownersChecked + second.ownersChecked
  quarantined := first.quarantined + second.quarantined
  deleted := first.deleted + second.deleted
  revived := first.revived + second.revived

inductive PageResult (O : Type)
  | swept (totals : SweepTotals) (after : O)
  | drained (totals : SweepTotals)
  | unfinished (totals : SweepTotals)
  | failed (totals : SweepTotals)

def PageResult.outcome : PageResult O → PageOutcome
  | .swept _ _ => .swept
  | .drained _ => .drained
  | .unfinished _ => .unfinished
  | .failed _ => .failed

def PageResult.totals : PageResult O → SweepTotals
  | .swept totals _ | .drained totals | .unfinished totals | .failed totals => totals

structure Liveness (O : Type) where
  alive : List O
  missing : List O

structure ReviveResult where
  jobs : ℕ
  unfinished : Bool

section Page

variable (env : Surroundings T O) (options : ReconciliationOptions) (ownerType : T)

def readNow (w : World T O) : ℤ × World T O :=
  let w := begun env w
  (env.now w.tick, w)

def askLiveness (ownerIds : List O) (w : World T O) : Option (Liveness O) × World T O :=
  let w := begun env w
  match env.findExisting w.tick ownerType ownerIds with
  | none => (none, w.logged [.resolverFailed ownerType])
  | some existing =>
    let alive := ownerIds.filter fun ownerId => existing ownerId
    let missing := ownerIds.filter fun ownerId => !existing ownerId
    (some ⟨alive, missing⟩, w.logged [.asked ownerType alive missing])

variable [LinearOrder T] [LinearOrder O]

def quarantine (ownerIds : List O) (clock : SweepClock) (w : World T O) : ℕ × World T O :=
  if ownerIds = [] then (0, w)
  else
    let (quarantined, w) :=
      quarantineByOwnerIds env ownerType ownerIds clock.now clock.settledBefore w
    (quarantined, if 0 < quarantined then w.logged [.quarantined ownerType quarantined] else w)

def deleteExpired (ownerIds : List O) (clock : SweepClock) (w : World T O) : ℕ × World T O :=
  if ownerIds = [] then (0, w)
  else
    let (deleted, w) :=
      deleteQuarantinedByOwnerIds env ownerType ownerIds clock.quarantinedBefore w
    (deleted.length,
      if 0 < deleted.length then w.logged [.deleted ownerType clock.now deleted] else w)

omit [LinearOrder T] [LinearOrder O] in
/-- A schedule that cannot be planned any more gives no clock. -/
def nextRunAtFor (job : OwnedJob T O) («from» : ℤ) (w : World T O) : Option ℤ × World T O :=
  match (resolveSchedule job.toScheduledJob options.defaultTimezone).bind fun schedule =>
      computeFirstRunAt env.calendar schedule «from» with
  | .ok nextRunAt => (nextRunAt, w)
  | .error error => (none, w.logged [.reviveClockFailed job.id error])

omit [LinearOrder T] [LinearOrder O] in
/-- Lift one quarantine after the other, until the pass is cancelled. -/
def lifts («from» : ℤ) : List (OwnedJob T O) → (revived lifted : ℕ) → (revivedOwnerIds : List O) →
    World T O → (ℕ × ℕ × List O) × World T O
  | [], revived, lifted, revivedOwnerIds, w => ((revived, lifted, revivedOwnerIds), w)
  | job :: jobs, revived, lifted, revivedOwnerIds, w =>
    if env.aborted w.tick then ((revived, lifted, revivedOwnerIds), w)
    else
      let (nextRunAt, w) :=
        if job.enabled then nextRunAtFor env options job «from» w else (none, w)
      let (count, w) := liftQuarantine env job.id nextRunAt w
      lifts «from» jobs (revived + count) (lifted + 1)
        (if 0 < count then revivedOwnerIds ++ [job.ownerId] else revivedOwnerIds) w

def revive (ownerIds : List O) (w : World T O) : ReviveResult × World T O :=
  if ownerIds = [] then (⟨0, false⟩, w)
  else
    let (quarantined, w) := findQuarantinedByOwnerIds env ownerType ownerIds options.batchSize w
    if quarantined = [] then (⟨0, false⟩, w)
    else
      let («from», w) := readNow env w
      let ((revived, lifted, revivedOwnerIds), w) := lifts env options «from» quarantined 0 0 [] w
      (⟨revived, lifted < quarantined.length ∨ quarantined.length = options.batchSize⟩,
        if 0 < revived then w.logged [.revived ownerType revivedOwnerIds.dedup revived] else w)

/-- What becomes of the jobs of a page whose owners were checked. -/
def settlePage (clock : SweepClock) (ownerIds : List O) (quarantined : ℕ) (liveness : Liveness O)
    (w : World T O) : PageResult O × World T O :=
  let (deleted, w) := deleteExpired env ownerType liveness.missing clock w
  let (revival, w) := revive env options ownerType liveness.alive w
  let totals : SweepTotals := ⟨ownerIds.length, quarantined, deleted, revival.jobs⟩
  if revival.unfinished then (.unfinished totals, w)
  else if ownerIds.length < options.batchSize then (.drained totals, w)
  else
    match ownerIds.getLast? with
    | none => (.drained totals, w)
    | some last => (.swept totals last, w)

/-- Owners that were quarantined are asked about again. -/
def sweepPage (clock : SweepClock) (after : Option O) (w : World T O) : PageResult O × World T O :=
  let (ownerIds, w) :=
    findOwnerIds env ownerType clock.settledBefore options.batchSize after w
  if ownerIds = [] then (.drained noTotals, w)
  else
    match askLiveness env ownerType ownerIds w with
    | (none, w) => (.failed noTotals, w)
    | (some ⟨alive, missing⟩, w) =>
      let w := { w with checked := w.checked ++ ownerIds.map fun ownerId => (ownerType, ownerId) }
      let (quarantined, w) := quarantine env ownerType missing clock w
      if 0 < quarantined then
        match askLiveness env ownerType missing w with
        | (none, w) => (.failed ⟨ownerIds.length, quarantined, 0, 0⟩, w)
        | (some recheck, w) =>
          settlePage env options ownerType clock ownerIds quarantined
            ⟨alive ++ recheck.alive, recheck.missing⟩ w
      else settlePage env options ownerType clock ownerIds quarantined ⟨alive, missing⟩ w

end Page

/-! ## An owner type -/

inductive SweepOutcome
  | drained | stopped | failed
deriving DecidableEq

structure SweepResult (O : Type) where
  totals : SweepTotals
  pages : ℕ
  outcome : SweepOutcome
  /-- Where a walk that has stopped resumes. -/
  after : Option O

section Sweep

variable (env : Surroundings T O) (options : ReconciliationOptions) [LinearOrder T] [LinearOrder O]

/-- The first argument is the number of pages that may still be read. -/
def sweepPages (ownerType : T) (clock : SweepClock) :
    ℕ → SweepTotals → (pages : ℕ) → Option O → World T O → SweepResult O × World T O
  | 0, totals, pages, after, w => (⟨totals, pages, .stopped, after⟩, w)
  | left + 1, totals, pages, after, w =>
    if env.aborted w.tick then (⟨totals, pages, .stopped, after⟩, w)
    else
      let (page, w) := sweepPage env options ownerType clock after w
      let w := w.logged [.page ownerType page.outcome]
      let totals := addTotals totals page.totals
      match page with
      | .failed _ => (⟨totals, pages + 1, .failed, none⟩, w)
      -- the page still holds quarantines, so that it is its own resume point
      | .unfinished _ => (⟨totals, pages + 1, .stopped, after⟩, w)
      | .drained _ => (⟨totals, pages + 1, .drained, none⟩, w)
      | .swept _ last => sweepPages ownerType clock left totals (pages + 1) (some last) w

def sweepOwnerType (ownerType : T) (clock : SweepClock) (maxPages : ℕ) (startAfter : Option O)
    (w : World T O) : SweepResult O × World T O :=
  sweepPages env options ownerType clock maxPages noTotals 0 startAfter w

/-! ## A pass -/

structure ReconciliationSummary (T O : Type) where
  totals : SweepTotals
  skippedOwnerTypes : List T
  drained : Bool
  resumeFrom : Option (ReconciliationCursor T O)

omit [LinearOrder O] in
/-- A cursor whose type is gone continues at the next one, and a cursor past every type starts
over. -/
def pendingOwnerTypes (ownerTypes : List T) : Option T → List T × Bool
  | none => (ownerTypes, false)
  | some «from» =>
    match ownerTypes.dropWhile fun ownerType => decide (ownerType < «from») with
    | [] => (ownerTypes, true)
    | pending => (pending, false)

omit [LinearOrder O] in
def startAfter (resumeFrom : Option (ReconciliationCursor T O)) (ownerType : T) : Option O :=
  resumeFrom.bind fun cursor => if ownerType = cursor.ownerType then cursor.after else none

def secondsBefore (instant : ℤ) (seconds : ℕ) : ℤ := instant - toMilliseconds seconds

def walk (clock : SweepClock) (resumeFrom : Option (ReconciliationCursor T O)) :
    List T → (budget : ℕ) → ReconciliationSummary T O → World T O →
    ReconciliationSummary T O × World T O
  | [], _, summary, w => (summary, w)
  | ownerType :: ownerTypes, budget, summary, w =>
    if env.aborted w.tick ∨ budget = 0 then
      ({ summary with
        drained := false, resumeFrom := summary.resumeFrom.or (some ⟨ownerType, none⟩) },
        w.logged [.stoppedBefore ownerType (startAfter resumeFrom ownerType)])
    else if env.claimed w.tick ownerType then
      let (swept, w) := sweepOwnerType env options ownerType clock budget
        (startAfter resumeFrom ownerType) w
      walk clock resumeFrom ownerTypes (budget - swept.pages)
        { totals := addTotals summary.totals swept.totals
          -- only a failure before the first answer of a type leaves it untouched
          skippedOwnerTypes :=
            if swept.outcome = .failed ∧ swept.totals.ownersChecked = 0 then
              summary.skippedOwnerTypes ++ [ownerType]
            else summary.skippedOwnerTypes
          drained := summary.drained && swept.outcome = .drained
          resumeFrom :=
            if swept.outcome = .stopped then
              summary.resumeFrom.or (some ⟨ownerType, swept.after⟩)
            else summary.resumeFrom } w
    else
      walk clock resumeFrom ownerTypes budget
        { summary with
          skippedOwnerTypes := summary.skippedOwnerTypes ++ [ownerType], drained := false }
        (w.logged [.unclaimedOwnerType ownerType])

def reconcile (resumeFrom : Option (ReconciliationCursor T O)) (w : World T O) :
    ReconciliationSummary T O × World T O :=
  let (now, w) := readNow env w
  let clock : SweepClock :=
    ⟨now, secondsBefore now options.settleSeconds,
      secondsBefore now options.quarantineGraceSeconds⟩
  let (ownerTypes, w) := findOwnerTypes env w
  let (pending, startedOver) :=
    pendingOwnerTypes ownerTypes (resumeFrom.map ReconciliationCursor.ownerType)
  let w := if startedOver then w.logged [.startedOver] else w
  walk env options clock resumeFrom pending options.maxPagesPerPass
    ⟨noTotals, [], true, none⟩ w

/-! ## Passes one after the other -/

/-- Where the next pass resumes, whether the last one has drained, and what there is. -/
structure Passed (T O : Type) where
  resumeFrom : Option (ReconciliationCursor T O)
  drained : Bool
  world : World T O

/-- Passes each of which starts where the one before it has stopped. -/
def passes (jobs : List (OwnedJob T O)) : ℕ → Passed T O
  | 0 => ⟨none, false, ⟨jobs, 0, [], [], []⟩⟩
  | n + 1 =>
    let passed := passes jobs n
    let (summary, world) := reconcile env options passed.resumeFrom passed.world
    ⟨summary.resumeFrom, summary.drained, world⟩

end Sweep

end Reconciliation

end N8n.Scheduler
