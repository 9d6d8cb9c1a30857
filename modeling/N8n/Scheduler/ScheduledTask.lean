import Mathlib.Data.List.Sort
import N8n.Foundations.Table
import N8n.Scheduler.Recurrence

/-!
# Scheduled tasks

A row of `scheduled_task` is one run of a job: it is claimed under a lease, started, and ends in a
terminal status, or goes back to wait for another attempt. The statements of the repository are
atomic, and each reads the database clock `now`. The payload of a row is left out: only a handler
reads it.

## Main definitions

* `ScheduledTask`, `Tasks`: the rows, and the table with its unique indexes
* `claimableSql`, `isRetirable`: which pending rows a claim may take, and which are retired
* `claimDueTasks`, `beginDispatch`, `runGuardedUpdate`, `runReaperUpdate`, …: the statements

## Main results

* `exists_claimed`: a claim takes some of the due rows, and returns them as it leaves them
-/

namespace N8n.Scheduler

/-! ## Rows -/

inductive ScheduledTaskStatus
  | pending
  | running
  | succeeded
  | failed
  | missed
  | cancelled
  deriving DecidableEq, Repr

def ScheduledTaskStatus.isTerminal : ScheduledTaskStatus → Bool
  | pending | running => false
  | succeeded | failed | missed | cancelled => true

structure ScheduledTask where
  id : ℕ
  jobId : ℕ
  taskType : String
  scheduledFor : ℤ
  runAt : ℤ
  status : ScheduledTaskStatus
  attempts : ℤ
  maxAttempts : ℤ
  claimedBy : Option String
  leaseExpiresAt : Option ℤ
  leaseEpoch : ℕ
  startedAt : Option ℤ
  dispatchedAt : Option ℤ
  finishedAt : Option ℤ
  errorMessage : Option String
  missedAfter : Option ℤ
  deriving DecidableEq, Repr

abbrev Lease := ℕ × ℕ

namespace ScheduledTask

/-- Two rows that cannot both be in the table. -/
def Clash (r r' : ScheduledTask) : Prop :=
  r.id = r'.id ∨ (r.jobId = r'.jobId ∧ r.scheduledFor = r'.scheduledFor)

instance : DecidableRel Clash := fun r r' => by unfold Clash; infer_instance

instance : Std.Symm Clash := ⟨by
  rintro r r' (hid | ⟨hjob, hfor⟩)
  · exact .inl hid.symm
  · exact .inr ⟨hjob.symm, hfor.symm⟩⟩

/-- The lease that a claim of the row holds. -/
def lease (r : ScheduledTask) : Lease := (r.id, r.leaseEpoch)

/-- The columns set by an update. None of them is covered by a unique index. -/
structure Values where
  set : ScheduledTask → ScheduledTask
  keepsKeys : ∀ r, (set r).id = r.id ∧ (set r).jobId = r.jobId ∧
    (set r).scheduledFor = r.scheduledFor := by intro r; exact ⟨rfl, rfl, rfl⟩

end ScheduledTask

abbrev Tasks := Table ScheduledTask ScheduledTask.Clash

structure RecordedOccurrence where
  jobId : ℕ
  taskType : String
  scheduledFor : ℤ
  runAt : ℤ
  maxAttempts : ℤ
  missedAfter : Option ℤ
  deriving DecidableEq, Repr

/-- A recorded row, with the defaults of the other columns. -/
def RecordedOccurrence.row (o : RecordedOccurrence) (id : ℕ) : ScheduledTask where
  id := id
  jobId := o.jobId
  taskType := o.taskType
  scheduledFor := o.scheduledFor
  runAt := o.runAt
  status := .pending
  attempts := 0
  maxAttempts := o.maxAttempts
  claimedBy := none
  leaseExpiresAt := none
  leaseEpoch := 0
  startedAt := none
  dispatchedAt := none
  finishedAt := none
  errorMessage := none
  missedAfter := o.missedAfter

/-- A row and the lease epoch that the caller read. -/
structure ClaimedRef where
  id : ℕ
  claimedEpoch : ℕ
  deriving DecidableEq, Repr

structure HostedClaimedRef extends ClaimedRef where
  host : String
  deriving DecidableEq, Repr

def ClaimedRef.lease (ref : ClaimedRef) : Lease := (ref.id, ref.claimedEpoch)

structure ClaimDueTasksBatch where
  host : String
  taskTypes : List String
  lookaheadMs : ℤ
  leaseMs : ℤ
  batchSize : ℕ
  deriving DecidableEq, Repr

/-! ## Pending rows -/

/-- A pending row that is still worth claiming: it has no deadline, its deadline is to come, or it
has been attempted. -/
def claimableSql (now : ℤ) (r : ScheduledTask) : Bool :=
  r.missedAfter.isNone || r.missedAfter.any (now < ·) || 0 < r.attempts

/-- The condition of `retireMissedPending`. -/
def isRetirable (now : ℤ) (r : ScheduledTask) : Bool :=
  r.status = .pending && r.missedAfter.isSome && r.missedAfter.any (· ≤ now) && r.attempts = 0

def isDue (batch : ClaimDueTasksBatch) (now : ℤ) (r : ScheduledTask) : Bool :=
  r.status = .pending && r.taskType ∈ batch.taskTypes && r.runAt ≤ now + batch.lookaheadMs &&
    claimableSql now r

namespace Tasks

/-! ## Statements -/

def updateValues (tasks : Tasks) (p : ScheduledTask → Bool) (values : ScheduledTask.Values) :
    Tasks :=
  tasks.update p values.set fun r r' => by
    obtain ⟨hid, hjob, hfor⟩ := values.keepsKeys r
    obtain ⟨hid', hjob', hfor'⟩ := values.keepsKeys r'
    unfold ScheduledTask.Clash
    rw [hid, hjob, hfor, hid', hjob', hfor']
    exact ⟨Iff.rfl, Iff.rfl⟩

theorem mem_updateValues {tasks : Tasks} {p : ScheduledTask → Bool} {values : ScheduledTask.Values}
    {r : ScheduledTask} : r ∈ (tasks.updateValues p values).rows ↔
      (∃ r' ∈ tasks.rows, p r' = true ∧ values.set r' = r) ∨ (r ∈ tasks.rows ∧ p r = false) :=
  Table.mem_updateWhere

/-- An update whose condition no row meets leaves the table as it is. -/
theorem updateValues_of_forall {tasks : Tasks} {p : ScheduledTask → Bool}
    {values : ScheduledTask.Values} (h : ∀ r ∈ tasks.rows, p r = false) :
    tasks.updateValues p values = tasks :=
  Table.eq_of_rows (Table.updateWhere_of_forall h)

/-- `INSERT … ON CONFLICT DO NOTHING` of one row, under the id that the database assigns. -/
def insertIgnoringDuplicates (tasks : Tasks) (id : ℕ) (o : RecordedOccurrence) : Tasks :=
  (Table.write (tasks.rows ++ [o.row id])).getD tasks

def deletePendingByJobIds (tasks : Tasks) (jobIds : List ℕ) : Tasks :=
  tasks.delete fun r => r.jobId ∈ jobIds && r.status = .pending

/-- Retire the pending occurrences that a catch-up run supersedes. -/
def updateToMissed (tasks : Tasks) (superseded : List (ℕ × ℤ)) (now : ℤ) : Tasks :=
  tasks.updateValues
    (fun r => r.status = .pending && superseded.any fun ⟨jobId, before⟩ =>
      r.jobId = jobId && r.scheduledFor < before)
    { set r := { r with status := .missed, finishedAt := some now } }

/-- Move the deadlines that are yet to come. -/
def updateMissedAfterForJobs (tasks : Tasks) (jobIds : List ℕ) (misfireGraceSeconds : ℕ)
    (now : ℤ) : Tasks :=
  tasks.updateValues
    (fun r => r.jobId ∈ jobIds && r.status = .pending && r.missedAfter.any (now < ·))
    { set r := { r with
        missedAfter := some (max r.runAt now + toMilliseconds misfireGraceSeconds) } }

/-- Delete a batch of the rows that are older than their retention. It throws where a status is not
terminal. -/
def deleteFinishedOlderThan (tasks : Tasks) (statuses : List ScheduledTaskStatus)
    (olderThanMs : ℤ) (batch : List ℕ) (now : ℤ) : Tasks :=
  if statuses.any fun status => !status.isTerminal then tasks else
    tasks.delete fun r => r.status ∈ statuses && r.finishedAt.any (· ≤ now - olderThanMs) &&
      r.id ∈ batch

def deleteByJobId (tasks : Tasks) (jobId : ℕ) : Tasks := tasks.delete fun r => r.jobId = jobId

def claimValues (batch : ClaimDueTasksBatch) (now : ℤ) : ScheduledTask.Values where
  set r := { r with
    status := .running
    claimedBy := some batch.host
    leaseExpiresAt := some (now + batch.leaseMs)
    leaseEpoch := r.leaseEpoch + 1 }

/-- The ids of the due rows, oldest first, that no other transaction has locked. -/
def candidates (tasks : Tasks) (batch : ClaimDueTasksBatch) (locked : List ℕ) (now : ℤ) : List ℕ :=
  let due := tasks.rows.filter fun r => isDue batch now r && decide (r.id ∉ locked)
  ((due.insertionSort fun r r' => r.runAt ≤ r'.runAt).take batch.batchSize).map ScheduledTask.id

def claimWithPostgres (tasks : Tasks) (batch : ClaimDueTasksBatch) (locked : List ℕ) (now : ℤ) :
    Tasks × List ScheduledTask :=
  let ids := tasks.candidates batch locked now
  let claimed := tasks.updateValues (fun r => r.id ∈ ids) (claimValues batch now)
  (claimed, claimed.rows.filter fun r => r.id ∈ ids)

/-- No row is locked; the rows are read again after the update. -/
def claimWithSqlite (tasks : Tasks) (batch : ClaimDueTasksBatch) (now : ℤ) :
    Tasks × List ScheduledTask :=
  let ids := tasks.candidates batch [] now
  if ids = [] then (tasks, []) else
    let claimed := tasks.updateValues (fun r => r.id ∈ ids && r.status = .pending)
      (claimValues batch now)
    (claimed, claimed.rows.filter fun r =>
      r.id ∈ ids && r.claimedBy = some batch.host && r.status = .running)

def claimDueTasks (isPostgres : Bool) (tasks : Tasks) (batch : ClaimDueTasksBatch)
    (locked : List ℕ) (now : ℤ) : Tasks × List ScheduledTask :=
  if batch.taskTypes = [] then (tasks, [])
  else if isPostgres then tasks.claimWithPostgres batch locked now
  else tasks.claimWithSqlite batch now

/-- The row that a claim still owns: running, with the claim's host and epoch. -/
def isOwned (claim : HostedClaimedRef) (r : ScheduledTask) : Bool :=
  r.id = claim.id && r.status = .running && r.claimedBy = some claim.host &&
    r.leaseEpoch = claim.claimedEpoch

/-- The sole right to run the handler under this lease. Returns the rows affected. -/
def beginDispatch (tasks : Tasks) (claim : HostedClaimedRef) (leaseMs now : ℤ) : Tasks × ℕ :=
  let guard := fun r => isOwned claim r && r.startedAt.isNone
  (tasks.updateValues guard
    { set r := { r with startedAt := some now, leaseExpiresAt := some (now + leaseMs) } },
    tasks.rows.countP guard)

def runGuardedUpdate (tasks : Tasks) (claim : HostedClaimedRef) (values : ScheduledTask.Values) :
    Tasks × ℕ :=
  (tasks.updateValues (isOwned claim) values, tasks.rows.countP (isOwned claim))

def markDispatched (tasks : Tasks) (claim : HostedClaimedRef) (now : ℤ) : Tasks × ℕ :=
  tasks.runGuardedUpdate claim { set r := { r with dispatchedAt := some now } }

def completeTask (tasks : Tasks) (claim : HostedClaimedRef) (now : ℤ) : Tasks × ℕ :=
  tasks.runGuardedUpdate claim
    { set r := { r with status := .succeeded, finishedAt := some now, errorMessage := none } }

def failTaskTerminal (tasks : Tasks) (claim : HostedClaimedRef) (errorMessage : String)
    (now : ℤ) : Tasks × ℕ :=
  tasks.runGuardedUpdate claim
    { set r := { r with
        status := .failed
        finishedAt := some now
        attempts := r.attempts + 1
        errorMessage := some errorMessage } }

def rescheduleTask (tasks : Tasks) (claim : HostedClaimedRef) (backoffMs : ℤ)
    (errorMessage : String) (now : ℤ) : Tasks × ℕ :=
  tasks.runGuardedUpdate claim
    { set r := { r with
        status := .pending
        runAt := now + backoffMs
        attempts := r.attempts + 1
        errorMessage := some errorMessage
        claimedBy := none
        leaseExpiresAt := none
        startedAt := none
        dispatchedAt := none } }

def releaseClaim (tasks : Tasks) (claim : HostedClaimedRef) : Tasks × ℕ :=
  tasks.runGuardedUpdate claim
    { set r := { r with
        status := .pending
        claimedBy := none
        leaseExpiresAt := none
        startedAt := none
        dispatchedAt := none } }

def findExpiredLeases (tasks : Tasks) (limit : ℕ) (now : ℤ) : List ScheduledTask :=
  let expired := tasks.rows.filter fun r => r.status = .running && r.leaseExpiresAt.any (· < now)
  (expired.insertionSort fun r r' => r.leaseExpiresAt.getD 0 ≤ r'.leaseExpiresAt.getD 0).take limit

inductive DispatchedFence
  | preDispatch
  | postDispatch
  deriving DecidableEq, Repr

/-- The row that a sweep may still recover: running at the epoch that it read, its lease expired,
and on the expected side of the dispatch. -/
def isRecoverable (ref : ClaimedRef) (dispatched : DispatchedFence) (now : ℤ)
    (r : ScheduledTask) : Bool :=
  r.id = ref.id && r.status = .running && r.leaseEpoch = ref.claimedEpoch &&
    r.leaseExpiresAt.any (· < now) &&
    match dispatched with
    | .postDispatch => r.dispatchedAt.isSome
    | .preDispatch => r.dispatchedAt.isNone

def runReaperUpdate (tasks : Tasks) (ref : ClaimedRef) (values : ScheduledTask.Values)
    (dispatched : DispatchedFence) (now : ℤ) : Tasks × ℕ :=
  (tasks.updateValues (isRecoverable ref dispatched now) values,
    tasks.rows.countP (isRecoverable ref dispatched now))

def reclaimExpired (tasks : Tasks) (ref : ClaimedRef) (backoffMs : ℤ) (errorMessage : String)
    (now : ℤ) : Tasks × ℕ :=
  tasks.runReaperUpdate ref
    { set r := { r with
        status := .pending
        runAt := now + backoffMs
        attempts := r.attempts + 1
        leaseEpoch := r.leaseEpoch + 1
        claimedBy := none
        leaseExpiresAt := none
        errorMessage := some errorMessage
        startedAt := none
        dispatchedAt := none } }
    .preDispatch now

def deadLetterExpired (tasks : Tasks) (ref : ClaimedRef) (errorMessage : String) (now : ℤ) :
    Tasks × ℕ :=
  tasks.runReaperUpdate ref
    { set r := { r with
        status := .failed
        finishedAt := some now
        attempts := r.attempts + 1
        errorMessage := some errorMessage } }
    .preDispatch now

def completeExpired (tasks : Tasks) (ref : ClaimedRef) (now : ℤ) : Tasks × ℕ :=
  tasks.runReaperUpdate ref
    { set r := { r with status := .succeeded, finishedAt := some now, errorMessage := none } }
    .postDispatch now

/-- The ids of a batch of the pending rows past their deadline, the oldest deadline first. Rows that
another transaction has locked are skipped. -/
def retired (tasks : Tasks) (limit : ℕ) (locked : List ℕ) (now : ℤ) : List ℕ :=
  let retirable := tasks.rows.filter fun r => isRetirable now r && decide (r.id ∉ locked)
  ((retirable.insertionSort fun r r' => r.missedAfter.getD 0 ≤ r'.missedAfter.getD 0).take
    limit).map ScheduledTask.id

def retireMissedPending (tasks : Tasks) (limit : ℕ) (locked : List ℕ) (now : ℤ) : Tasks :=
  tasks.updateValues (fun r => r.id ∈ tasks.retired limit locked now)
    { set r := { r with status := .missed, finishedAt := some now } }

/-! ## What a claim takes -/

section Claims

variable {isPostgres : Bool} {tasks : Tasks} {batch : ClaimDueTasksBatch} {locked : List ℕ}
  {now : ℤ} {r : ScheduledTask}

theorem row_eq_of_id {r' : ScheduledTask} (hr : r ∈ tasks.rows) (hr' : r' ∈ tasks.rows)
    (h : r.id = r'.id) : r = r' :=
  Table.eq_of_clash hr hr' (.inl h)

/-- A row picked by a sorted and limited query meets its condition. -/
theorem of_mem_take {p : ScheduledTask → Bool} {le : ScheduledTask → ScheduledTask → Prop}
    [DecidableRel le] {limit : ℕ} (hr : r ∈ tasks.rows)
    (h : r.id ∈ (((tasks.rows.filter p).insertionSort le).take limit).map ScheduledTask.id) :
    p r = true := by
  obtain ⟨r', hr', hid⟩ := List.mem_map.mp h
  have hr' := List.mem_of_mem_take hr'
  rw [List.mem_insertionSort, List.mem_filter] at hr'
  obtain rfl := row_eq_of_id hr'.1 hr hid
  exact hr'.2

theorem isDue_of_mem_candidates (hr : r ∈ tasks.rows)
    (h : r.id ∈ tasks.candidates batch locked now) : isDue batch now r = true := by
  have hp := of_mem_take hr h
  rw [Bool.and_eq_true] at hp
  exact hp.1

theorem isRetirable_of_mem_retired {limit : ℕ} (hr : r ∈ tasks.rows)
    (h : r.id ∈ tasks.retired limit locked now) : isRetirable now r = true := by
  have hp := of_mem_take hr h
  rw [Bool.and_eq_true] at hp
  exact hp.1

theorem pending_of_isRetirable (h : isRetirable now r = true) : r.status = .pending := by
  simp only [isRetirable, Bool.and_eq_true, decide_eq_true_eq] at h
  exact h.1.1.1

theorem pending_of_isDue (h : isDue batch now r = true) : r.status = .pending := by
  simp only [isDue, Bool.and_eq_true, decide_eq_true_eq] at h
  exact h.1.1.1

/-- What one claim takes, and what it leaves behind. -/
structure Claimed (tasks : Tasks) (batch : ClaimDueTasksBatch) (now : ℤ)
    (p : ScheduledTask → Bool) (claimed : Tasks × List ScheduledTask) : Prop where
  due : ∀ r ∈ tasks.rows, p r = true → isDue batch now r = true
  rows : claimed.1.rows = Table.updateWhere p (claimValues batch now).set tasks.rows
  returned : claimed.2 = (tasks.rows.filter p).map (claimValues batch now).set

theorem claimed_none : Claimed tasks batch now (fun _ => false) (tasks, []) where
  due := by simp
  rows := by simp [Table.updateWhere]
  returned := by simp

/-- **A claim takes some of the due rows, and returns them as it leaves them.** -/
theorem exists_claimed : ∃ p, Claimed tasks batch now p
    (claimDueTasks isPostgres tasks batch locked now) := by
  unfold claimDueTasks
  split_ifs
  · exact ⟨_, claimed_none⟩
  · refine ⟨fun r => r.id ∈ tasks.candidates batch locked now, ?_, rfl, ?_⟩
    · intro r hr hp
      exact isDue_of_mem_candidates hr (of_decide_eq_true hp)
    · refine Table.filter_updateWhere ?_
      intro r _
      split_ifs <;> rfl
  · unfold claimWithSqlite
    simp only
    split_ifs
    · exact ⟨_, claimed_none⟩
    · refine ⟨fun r => r.id ∈ tasks.candidates batch [] now && r.status = .pending, ?_, rfl, ?_⟩
      · intro r hr hp
        rw [Bool.and_eq_true, decide_eq_true_eq] at hp
        exact isDue_of_mem_candidates hr hp.1
      · refine Table.filter_updateWhere ?_
        intro r hr
        split_ifs with hp
        · rw [Bool.and_eq_true, decide_eq_true_eq] at hp
          simp [claimValues, hp.1, hp.2]
        · -- a row among the candidates is pending, so that the update has not missed it
          by_cases hmem : r.id ∈ tasks.candidates batch [] now
          · have hdue := isDue_of_mem_candidates hr hmem
            exact absurd (by simp [hmem, pending_of_isDue hdue]) hp
          · simp [hmem]

end Claims

end Tasks

end N8n.Scheduler
