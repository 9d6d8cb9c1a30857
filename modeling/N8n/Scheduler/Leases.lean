import N8n.Scheduler.Executor

/-!
# Leases

What one step does to a row, and what every process may rely on about the lease it holds: as long as
the row runs under that lease, only the process that holds it starts the row or marks its dispatch.

## Main definitions

* `Change`: what one step can do to a row
* `Good`: what a process may rely on
* `Inv`: the invariant of a cluster

## Main results

* `stepped_next`: what a step can be
* `held_next`: a row that runs under a known lease ran under it before the step
* `inv_next`: the invariant is kept
-/

namespace N8n.Scheduler

open Tasks

/-! ## What a step does to a row -/

/-- What one step can do to a row; `w` is the process whose statement the step is. -/
inductive Change (w : Option Process) (r : ScheduledTask) : ScheduledTask → Prop
  | keep : Change w r r
  | retime (deadline : Option ℤ) (pending : r.status = .pending) :
    Change w r { r with missedAfter := deadline }
  | miss (now : ℤ) (pending : r.status = .pending) :
    Change w r { r with status := .missed, finishedAt := some now }
  | claim (batch : ClaimDueTasksBatch) (now : ℤ) (pending : r.status = .pending) :
    Change w r ((claimValues batch now).set r)
  | confirm (entry : ClaimedEntry) (dispatchMark : DispatchMark) (leaseMs now : ℤ)
    (writer : w = some (.firing entry .confirming dispatchMark))
    (owned : isOwned entry.claim r = true) (unstarted : r.startedAt = none) :
    Change w r { r with startedAt := some now, leaseExpiresAt := some (now + leaseMs) }
  | mark (entry : ClaimedEntry) (stage : FireStage) (now : ℤ) (hstage : stage ≠ .confirming)
    (writer : w = some (.firing entry stage .writing)) (owned : isOwned entry.claim r = true) :
    Change w r { r with dispatchedAt := some now }
  | complete (entry : ClaimedEntry) (result : HandlerResult) (dispatchMark : DispatchMark) (now : ℤ)
    (writer : w = some (.firing entry (.ended result) dispatchMark))
    (owned : isOwned entry.claim r = true) :
    Change w r { r with status := .succeeded, finishedAt := some now, errorMessage := none }
  | fail (entry : ClaimedEntry) (errorMessage : String) (now : ℤ)
    (writer : w = some (.firing entry (.ended (.threw errorMessage)) .unset))
    (owned : isOwned entry.claim r = true) :
    Change w r { r with
      status := .failed
      finishedAt := some now
      attempts := r.attempts + 1
      errorMessage := some errorMessage }
  | reschedule (entry : ClaimedEntry) (errorMessage : String) (dispatchMark : DispatchMark)
    (runAt : ℤ) (writer : w = some (.firing entry (.ended (.threw errorMessage)) dispatchMark))
    (owned : isOwned entry.claim r = true)
    (left : entry.task.attempts + 1 < entry.task.maxAttempts) :
    Change w r { r with
      status := .pending
      runAt := runAt
      attempts := r.attempts + 1
      errorMessage := some errorMessage
      claimedBy := none
      leaseExpiresAt := none
      startedAt := none
      dispatchedAt := none }
  | release (claim : HostedClaimedRef) (writer : w = some (.releasing claim))
    (owned : isOwned claim r = true) :
    Change w r { r with
      status := .pending
      claimedBy := none
      leaseExpiresAt := none
      startedAt := none
      dispatchedAt := none }
  | reclaim (task : ScheduledTask) (expired : List ScheduledTask) (now runAt : ℤ)
    (errorMessage : String) (writer : w = some (.reaping (task :: expired)))
    (recoverable : isRecoverable ⟨task.id, task.leaseEpoch⟩ .preDispatch now r = true)
    (left : task.attempts + 1 < task.maxAttempts) :
    Change w r { r with
      status := .pending
      runAt := runAt
      attempts := r.attempts + 1
      leaseEpoch := r.leaseEpoch + 1
      claimedBy := none
      leaseExpiresAt := none
      errorMessage := some errorMessage
      startedAt := none
      dispatchedAt := none }
  | deadLetter (task : ScheduledTask) (expired : List ScheduledTask) (now : ℤ)
    (errorMessage : String) (writer : w = some (.reaping (task :: expired)))
    (recoverable : isRecoverable ⟨task.id, task.leaseEpoch⟩ .preDispatch now r = true) :
    Change w r { r with
      status := .failed
      finishedAt := some now
      attempts := r.attempts + 1
      errorMessage := some errorMessage }
  | completeExpired (task : ScheduledTask) (expired : List ScheduledTask) (now : ℤ)
    (writer : w = some (.reaping (task :: expired)))
    (recoverable : isRecoverable ⟨task.id, task.leaseEpoch⟩ .postDispatch now r = true) :
    Change w r { r with status := .succeeded, finishedAt := some now, errorMessage := none }

namespace Cluster

/-- The process whose statement a step is. -/
def writer (s : Cluster) : Event → Option Process
  | .write k _ => s.processes[k]?.map Prod.snd
  | _ => none

end Cluster

section Changes

variable {w : Option Process} {tasks tasks' : Tasks} {r r' : ScheduledTask} {now : ℤ}
  {dispatchMark : DispatchMark} {options : ExecutorOptions} {processes : List Process}

theorem isOwned_iff {claim : HostedClaimedRef} : isOwned claim r = true ↔
    r.lease = claim.lease ∧ r.status = .running ∧ r.claimedBy = some claim.host := by
  simp only [isOwned, Bool.and_eq_true, decide_eq_true_eq, ScheduledTask.lease, ClaimedRef.lease,
    Prod.mk.injEq]
  tauto

theorem isRecoverable_iff {ref : ClaimedRef} {dispatched : DispatchedFence} :
    isRecoverable ref dispatched now r = true ↔
      r.lease = ref.lease ∧ r.status = .running ∧ r.leaseExpiresAt.any (· < now) = true ∧
        (r.dispatchedAt.isSome = true ↔ dispatched = .postDispatch) := by
  cases dispatched <;>
    simp [isRecoverable, ScheduledTask.lease, ClaimedRef.lease] <;> tauto

theorem exists_change_updateValues {guard : ScheduledTask → Bool} {values : ScheduledTask.Values}
    (h : ∀ r ∈ tasks.rows, guard r = true → Change w r (values.set r))
    (hr' : r' ∈ (tasks.updateValues guard values).rows) : ∃ r ∈ tasks.rows, Change w r r' := by
  rcases mem_updateValues.mp hr' with ⟨r, hr, hguard, rfl⟩ | ⟨hr, -⟩
  · exact ⟨r, hr, h r hr hguard⟩
  · exact ⟨r', hr, .keep⟩

/-- What the outcome of a fire does to a row. -/
theorem exists_change_recordOutcome {entry : ClaimedEntry} {result : HandlerResult}
    (hw : w = some (.firing entry (.ended result) dispatchMark))
    (hr' : r' ∈ (recordOutcome tasks entry result dispatchMark now).1.rows) :
    ∃ r ∈ tasks.rows, Change w r r' := by
  unfold recordOutcome at hr'
  cases result with
  | returned =>
    exact exists_change_updateValues (fun r _ hg => .complete entry _ _ now hw hg) hr'
  | threw errorMessage =>
    simp only at hr'
    split_ifs at hr' with hmax hmark
    · exact exists_change_updateValues (fun r _ hg => .complete entry _ _ now hw hg) hr'
    · obtain rfl : dispatchMark = .unset := by simpa using hmark
      exact exists_change_updateValues (fun r _ hg => .fail entry _ now hw hg) hr'
    · exact exists_change_updateValues
        (fun r _ hg => .reschedule entry _ _ _ hw hg (not_le.mp hmax)) hr'

/-- What a sweep does to a row. -/
theorem exists_change_recoverExpired {task : ScheduledTask} {expired : List ScheduledTask}
    (hw : w = some (.reaping (task :: expired)))
    (hr' : r' ∈ (recoverExpired tasks task now).1.rows) : ∃ r ∈ tasks.rows, Change w r r' := by
  unfold recoverExpired at hr'
  simp only at hr'
  split_ifs at hr' with hdispatched hmax
  · exact exists_change_updateValues (fun r _ hg => .completeExpired task _ now hw hg) hr'
  · exact exists_change_updateValues (fun r _ hg => .deadLetter task _ now _ hw hg) hr'
  · exact exists_change_updateValues
      (fun r _ hg => .reclaim task _ now _ _ hw hg (not_le.mp hmax)) hr'

/-- The statement of a process, and what becomes of the process. -/
inductive Writes (options : ExecutorOptions) (tasks : Tasks) (now : ℤ) :
    Process → Tasks → List Process → Prop
  | release (claim : HostedClaimedRef) :
    Writes options tasks now (.releasing claim) (tasks.releaseClaim claim).1 []
  | lost (entry : ClaimedEntry) (dispatchMark : DispatchMark)
    (h : (tasks.beginDispatch entry.claim options.leaseMs now).2 = 0) :
    Writes options tasks now (.firing entry .confirming dispatchMark)
      (tasks.beginDispatch entry.claim options.leaseMs now).1 []
  | won (entry : ClaimedEntry) (dispatchMark : DispatchMark)
    (h : (tasks.beginDispatch entry.claim options.leaseMs now).2 ≠ 0) :
    Writes options tasks now (.firing entry .confirming dispatchMark)
      (tasks.beginDispatch entry.claim options.leaseMs now).1 [.firing entry .won dispatchMark]
  | mark (entry : ClaimedEntry) (stage : FireStage) (hstage : stage ≠ .confirming) :
    Writes options tasks now (.firing entry stage .writing)
      (tasks.markDispatched entry.claim now).1 [.firing entry stage .settled]
  | outcome (entry : ClaimedEntry) (result : HandlerResult) (dispatchMark : DispatchMark)
    (settled : dispatchMark ≠ .writing) :
    Writes options tasks now (.firing entry (.ended result) dispatchMark)
      (recordOutcome tasks entry result dispatchMark now).1 []
  | recover (task : ScheduledTask) (expired : List ScheduledTask) :
    Writes options tasks now (.reaping (task :: expired)) (recoverExpired tasks task now).1
      [.reaping expired]

theorem writes_of_write {p : Process} (h : p.write options tasks now = some (tasks', processes)) :
    Writes options tasks now p tasks' processes := by
  unfold Process.write at h
  split at h
  · cases h
    exact .release _
  · rename_i entry dispatchMark
    cases h
    split_ifs with hwon
    · exact .lost entry dispatchMark hwon
    · exact .won entry dispatchMark hwon
  · rename_i entry stage hstage
    cases h
    refine .mark entry stage ?_
    rintro rfl
    exact hstage rfl
  · rename_i entry result dispatchMark hsettled
    cases h
    refine .outcome entry result dispatchMark ?_
    rintro rfl
    exact hsettled rfl
  · cases h
    exact .recover _ _
  · cases h

theorem exists_change_beginDispatch {entry : ClaimedEntry} {leaseMs now : ℤ}
    (hw : w = some (.firing entry .confirming dispatchMark))
    (hr' : r' ∈ (tasks.beginDispatch entry.claim leaseMs now).1.rows) :
    ∃ r ∈ tasks.rows, Change w r r' := by
  refine exists_change_updateValues (fun r _ hg => ?_) hr'
  rw [Bool.and_eq_true, Option.isNone_iff_eq_none] at hg
  exact .confirm entry dispatchMark leaseMs now hw hg.1 hg.2

/-- What the statement of a process does to a row. -/
theorem Writes.exists_change {p : Process} (h : Writes options tasks now p tasks' processes)
    (hr' : r' ∈ tasks'.rows) : ∃ r ∈ tasks.rows, Change (some p) r r' := by
  cases h with
  | release claim => exact exists_change_updateValues (fun r _ hg => .release claim rfl hg) hr'
  | lost | won => exact exists_change_beginDispatch rfl hr'
  | mark entry stage hstage =>
    exact exists_change_updateValues (fun r _ hg => .mark entry stage now hstage rfl hg) hr'
  | outcome => exact exists_change_recordOutcome rfl hr'
  | recover => exact exists_change_recoverExpired rfl hr'

end Changes

section Steps

variable {isPostgres : Bool} {options : ℕ → ExecutorOptions} {s t : Cluster} {e : Event}
  {r r' : ScheduledTask} {processes : List Process} {p : Process}

/-- Where a row after a statement comes from. -/
inductive Origin (w : Option Process) (tasks : Tasks) (lastId lastId' : ℕ) (r' : ScheduledTask) :
    Prop
  | changed (r : ScheduledTask) (mem : r ∈ tasks.rows) (change : Change w r r')
  | inserted (id : ℕ) (occurrence : RecordedOccurrence) (above : lastId < id) (last : id = lastId')
    (row : r' = occurrence.row id)

theorem Origin.of_exists {w : Option Process} {tasks : Tasks} {lastId lastId' : ℕ}
    (h : ∃ r ∈ tasks.rows, Change w r r') : Origin w tasks lastId lastId' r' := by
  obtain ⟨r, hr, hchange⟩ := h
  exact .changed r hr hchange

/-- What a process does between two statements, with its executor. -/
inductive Goes (executor : Executor) : Event → Process → Executor → List Process → Prop
  | lost (k : ℕ) (p : Process) (h : ∀ entry, p ≠ .timer entry) :
    Goes executor (.fail k) p executor []
  | lostMark (k : ℕ) (entry : ClaimedEntry) (stage : FireStage) :
    Goes executor (.fail k) (.firing entry stage .writing) executor [.firing entry stage .settled]
  | lostRow (k : ℕ) (task : ScheduledTask) (expired : List ScheduledTask) :
    Goes executor (.fail k) (.reaping (task :: expired)) executor [.reaping expired]
  | schedule (k : ℕ) (host : String) (tasks : List ScheduledTask) (aborted : Bool) :
    Goes executor (.schedule k aborted) (.claimed host tasks)
      (executor.schedule host tasks aborted).1 (executor.schedule host tasks aborted).2
  | fire (k : ℕ) (entry : ClaimedEntry) (registered : Bool) :
    Goes executor (.fire k registered) (.timer entry)
      (executor.fire entry registered).1 (executor.fire entry registered).2
  | execute (k : ℕ) (entry : ClaimedEntry) (dispatchMark : DispatchMark) :
    Goes executor (.execute k entry.task) (.firing entry .won dispatchMark) executor
      [.firing entry .executing dispatchMark]
  | dispatched (k : ℕ) (entry : ClaimedEntry) (dispatchMark : DispatchMark) :
    Goes executor (.dispatched k) (.firing entry .executing dispatchMark) executor
      [.firing entry .executing dispatchMark.begin]
  | settle (k : ℕ) (entry : ClaimedEntry) (dispatchMark : DispatchMark) (result : HandlerResult) :
    Goes executor (.settle k result) (.firing entry .executing dispatchMark) executor
      [.firing entry (.ended result)
        (if result = .returned then dispatchMark.begin else dispatchMark)]
  | abortSweep (k : ℕ) (expired : List ScheduledTask) :
    Goes executor (.abortSweep k) (.reaping expired) executor []

/-- **What a step of a cluster can be.** -/
inductive Stepped (options : ℕ → ExecutorOptions) (s : Cluster) : Event → Cluster → Prop
  | statement (e : Event) (tasks : Tasks) (lastId : ℕ) (hlast : s.lastId ≤ lastId)
    (started : e.started = none) (writer : s.writer e = none)
    (rows : ∀ r' ∈ tasks.rows, Origin none s.tasks s.lastId lastId r') :
    Stepped options s e { s with tasks := tasks, lastId := lastId }
  | claim (i : ℕ) (host : String) (taskTypes : List String) (locked : List ℕ)
    (batch : ClaimDueTasksBatch) (now : ℤ) (p : ScheduledTask → Bool)
    (claimed : Tasks × List ScheduledTask) (h : Claimed s.tasks batch now p claimed) :
    Stepped options s (.claimDueTasks i host taskTypes locked now)
      { s with tasks := claimed.1, processes := (i, .claimed host claimed.2) :: s.processes }
  | sweep (i limit : ℕ) (now : ℤ) :
    Stepped options s (.findExpiredLeases i limit now)
      { s with
        processes := (i, .reaping (s.tasks.findExpiredLeases limit now)) :: s.processes }
  | write (k i : ℕ) (now : ℤ) (p : Process) (tasks : Tasks) (processes : List Process)
    (hk : s.processes[k]? = some (i, p))
    (hwrite : Writes (options i) s.tasks now p tasks processes) :
    Stepped options s (.write k now) ({ s with tasks := tasks }.become k i processes)
  | goes (e : Event) (k i : ℕ) (p : Process) (executor : Executor) (processes : List Process)
    (hk : s.processes[k]? = some (i, p)) (h : Goes (s.executors i) e p executor processes) :
    Stepped options s e ((s.setExecutor i executor).become k i processes)
  | stop (i : ℕ) : Stepped options s (.stop i) (s.stop i)
  | clear (i : ℕ) (stopping : (s.executors i).stopping = true) :
    Stepped options s (.clear i)
      (s.setExecutor i { s.executors i with claimedTaskById := .empty })
  | crash (i : ℕ) :
    Stepped options s (.crash i)
      { s.setExecutor i .initial with processes := s.processes.filter fun p => p.1 ≠ i }

theorem setExecutor_self (i : ℕ) : s.setExecutor i (s.executors i) = s := by
  unfold Cluster.setExecutor
  rw [Function.update_eq_self]

theorem goes_of_fail {executor : Executor} {k : ℕ} (h : p.fail = some processes) :
    Goes executor (.fail k) p executor processes := by
  unfold Process.fail at h
  split at h
  · cases h
    exact .lost k _ fun _ => Process.noConfusion
  · cases h
    exact .lost k _ fun _ => Process.noConfusion
  · cases h
    exact .lostMark k _ _
  · cases h
  · cases h
    exact .lost k _ fun _ => Process.noConfusion
  · cases h
    exact .lostRow k _ _
  · cases h

/-- A process that leaves its executor as it is. -/
theorem Stepped.of_process {k i : ℕ} (hk : s.processes[k]? = some (i, p))
    (h : Goes (s.executors i) e p (s.executors i) processes) :
    Stepped options s e (s.become k i processes) := by
  have hgoes := @Stepped.goes options s e k i p _ processes hk h
  rwa [setExecutor_self] at hgoes

/-- A statement that only deletes rows. -/
theorem Stepped.of_delete {tasks : Tasks} (started : e.started = none) (writer : s.writer e = none)
    (h : ∀ r ∈ tasks.rows, r ∈ s.tasks.rows) : Stepped options s e { s with tasks := tasks } :=
  .statement e tasks s.lastId le_rfl started writer fun r hr => .changed r (h r hr) .keep

/-- A statement that changes pending rows. -/
theorem Stepped.of_pending {guard : ScheduledTask → Bool} {values : ScheduledTask.Values}
    (started : e.started = none) (writer : s.writer e = none)
    (h : ∀ r ∈ s.tasks.rows, guard r = true → Change none r (values.set r)) :
    Stepped options s e { s with tasks := s.tasks.updateValues guard values } :=
  .statement e _ s.lastId le_rfl started writer fun _ hr =>
    .of_exists (exists_change_updateValues h hr)

theorem stepped_next (h : s.next isPostgres options e = some t) : Stepped options s e t := by
  unfold Cluster.next at h
  split at h
  · rename_i id occurrence
    split_ifs at h with hid
    cases h
    refine .statement _ _ id hid.le rfl rfl ?_
    intro r' hr'
    unfold insertIgnoringDuplicates at hr'
    cases hwrite : (Table.write (s.tasks.rows ++ [occurrence.row id]) : Option Tasks) with
    | none =>
      rw [hwrite] at hr'
      exact .changed r' hr' .keep
    | some written =>
      rw [hwrite, Option.getD_some, Table.write_eq_some.mp hwrite] at hr'
      rcases List.mem_append.mp hr' with hr' | hr'
      · exact .changed r' hr' .keep
      · exact .inserted id occurrence hid rfl (List.mem_singleton.mp hr')
  · cases h
    exact .of_delete rfl rfl fun r hr => (Table.mem_deleteWhere.mp hr).1
  · cases h
    refine .of_pending rfl rfl ?_
    intro r _ hg
    rw [Bool.and_eq_true, decide_eq_true_eq] at hg
    exact .miss _ hg.1
  · cases h
    refine .of_pending rfl rfl ?_
    intro r _ hg
    simp only [Bool.and_eq_true, decide_eq_true_eq] at hg
    exact .retime _ hg.1.2
  · cases h
    refine .of_delete rfl rfl ?_
    intro r hr
    unfold deleteFinishedOlderThan at hr
    split_ifs at hr
    · exact hr
    · exact (Table.mem_deleteWhere.mp hr).1
  · cases h
    exact .of_delete rfl rfl fun r hr => (Table.mem_deleteWhere.mp hr).1
  · rename_i limit locked now
    cases h
    refine .of_pending rfl rfl ?_
    intro r hr hg
    exact .miss now (pending_of_isRetirable (isRetirable_of_mem_retired hr (of_decide_eq_true hg)))
  · rename_i i host taskTypes locked now
    cases h
    obtain ⟨p, hp⟩ := @exists_claimed isPostgres s.tasks ⟨host, taskTypes, (options i).lookaheadMs,
      (options i).leaseMs, (options i).batchSize⟩ locked now
    exact .claim i host taskTypes locked _ now p _ hp
  · cases h
    exact .sweep _ _ _
  · split at h
    · rename_i i p hk
      obtain ⟨⟨tasks, processes⟩, hwrite, rfl⟩ := Option.map_eq_some_iff.mp h
      exact .write _ i _ p tasks processes hk (writes_of_write hwrite)
    · cases h
  · split at h
    · rename_i i p hk
      obtain ⟨processes, hfail, rfl⟩ := Option.map_eq_some_iff.mp h
      exact .of_process hk (goes_of_fail hfail)
    · cases h
  · split at h
    · rename_i i host tasks hk
      cases h
      exact .goes _ _ i _ _ _ hk (.schedule _ host tasks _)
    · cases h
  · split at h
    · rename_i i entry hk
      cases h
      exact .goes _ _ i _ _ _ hk (.fire _ entry _)
    · cases h
  · split at h
    · rename_i i entry dispatchMark hk
      split_ifs at h with htask
      cases h
      subst htask
      exact .of_process hk (.execute _ entry dispatchMark)
    · cases h
  · split at h
    · rename_i i entry dispatchMark hk
      cases h
      exact .of_process hk (.dispatched _ entry dispatchMark)
    · cases h
  · split at h
    · rename_i i entry dispatchMark hk
      cases h
      exact .of_process hk (.settle _ entry dispatchMark _)
    · cases h
  · split at h
    · rename_i i expired hk
      cases h
      exact .of_process hk (.abortSweep _ expired)
    · cases h
  · cases h
    exact .stop _
  · split_ifs at h with hstopping
    cases h
    exact .clear _ hstopping
  · cases h
    exact .crash _

theorem writer_write {k i : ℕ} {now : ℤ} (hk : s.processes[k]? = some (i, p)) :
    s.writer (.write k now) = some p := by
  show s.processes[k]?.map Prod.snd = some p
  rw [hk]
  rfl

theorem writer_of_goes {executor executor' : Executor} (h : Goes executor e p executor' processes) :
    s.writer e = none := by
  cases h <;> rfl

/-- Where the rows after a step come from. -/
theorem Stepped.origin (h : Stepped options s e t) (hr' : r' ∈ t.tasks.rows) :
    Origin (s.writer e) s.tasks s.lastId t.lastId r' := by
  cases h with
  | statement _ tasks lastId _ _ writer rows =>
    rw [writer]
    exact rows r' hr'
  | claim i host taskTypes locked batch now p claimed h =>
    have hr' : r' ∈ claimed.1.rows := hr'
    rw [h.rows] at hr'
    rcases Table.mem_updateWhere.mp hr' with ⟨r, hr, hp, rfl⟩ | ⟨hr, -⟩
    · exact .changed r hr (.claim batch now (pending_of_isDue (h.due r hr hp)))
    · exact .changed r' hr .keep
  | write k i now p tasks processes hk hwrite =>
    rw [writer_write hk]
    exact .of_exists (hwrite.exists_change hr')
  | sweep | goes | stop | clear | crash => exact .changed r' hr' .keep

theorem Stepped.lastId_le (h : Stepped options s e t) : s.lastId ≤ t.lastId := by
  cases h with
  | statement _ _ _ hlast => exact hlast
  | claim | sweep | write | goes | stop | clear | crash => exact le_rfl

end Steps

/-! ## Rows that stay under a lease -/

namespace Change

variable {w : Option Process} {r r' : ScheduledTask}

theorem id_eq (h : Change w r r') : r'.id = r.id := by cases h <;> rfl

theorem maxAttempts_eq (h : Change w r r') : r'.maxAttempts = r.maxAttempts := by cases h <;> rfl

theorem epoch_le (h : Change w r r') : r.leaseEpoch ≤ r'.leaseEpoch := by
  cases h with
  | claim | reclaim => exact Nat.le_succ _
  | _ => exact le_rfl

theorem running_of_isOwned {claim : HostedClaimedRef} (h : isOwned claim r = true) :
    r.status = .running := (isOwned_iff.mp h).2.1

theorem running_of_isRecoverable {ref : ClaimedRef} {dispatched : DispatchedFence} {now : ℤ}
    (h : isRecoverable ref dispatched now r = true) : r.status = .running :=
  (isRecoverable_iff.mp h).2.1

/-- A terminal row does not change. -/
theorem eq_of_isTerminal (h : Change w r r') (hr : r.status.isTerminal = true) : r' = r := by
  have hpending : r.status ≠ .pending := fun hp => by rw [hp] at hr; cases hr
  have hrunning : r.status ≠ .running := fun hp => by rw [hp] at hr; cases hr
  cases h with
  | keep => rfl
  | retime _ pending | miss _ pending | claim _ _ pending => exact absurd pending hpending
  | confirm _ _ _ _ _ owned | mark _ _ _ _ _ owned | complete _ _ _ _ _ owned
  | fail _ _ _ _ owned | reschedule _ _ _ _ _ owned | release _ _ owned =>
    exact absurd (running_of_isOwned owned) hrunning
  | reclaim _ _ _ _ _ _ recoverable | deadLetter _ _ _ _ _ recoverable
  | completeExpired _ _ _ _ recoverable =>
    exact absurd (running_of_isRecoverable recoverable) hrunning

/-- What a step can do to a row that goes on running under its lease. -/
structure Held (w : Option Process) (r r' : ScheduledTask) : Prop where
  running : r.status = .running
  attempts : r'.attempts = r.attempts
  started : r'.startedAt = r.startedAt ∨ (r'.startedAt ≠ none ∧ ∃ entry dispatchMark,
    w = some (.firing entry .confirming dispatchMark) ∧ entry.task.lease = r.lease)
  dispatched : r'.dispatchedAt = r.dispatchedAt ∨ ∃ entry stage,
    w = some (.firing entry stage .writing) ∧ entry.task.lease = r.lease

theorem lease_of_isOwned {entry : ClaimedEntry} (h : isOwned entry.claim r = true) :
    entry.task.lease = r.lease := (isOwned_iff.mp h).1.symm

theorem held (h : Change w r r') (running : r'.status = .running)
    (epoch : r'.leaseEpoch = r.leaseEpoch) : Held w r r' := by
  cases h with
  | keep => exact ⟨running, rfl, .inl rfl, .inl rfl⟩
  | retime _ pending => exact ⟨running, rfl, .inl rfl, .inl rfl⟩
  | claim => exact absurd epoch (Nat.succ_ne_self _)
  | confirm entry dispatchMark _ _ writer owned =>
    refine ⟨running, rfl, .inr ⟨Option.some_ne_none _, entry, dispatchMark, writer, ?_⟩, .inl rfl⟩
    exact lease_of_isOwned owned
  | mark entry stage _ _ writer owned =>
    exact ⟨running, rfl, .inl rfl, .inr ⟨entry, stage, writer, lease_of_isOwned owned⟩⟩
  | miss | complete | fail | reschedule | release | reclaim | deadLetter | completeExpired =>
    cases running

end Change

/-! ## What a process may rely on -/

namespace Cluster

/-- The lease has been given out: no row has an older epoch. -/
def Knows (s : Cluster) (lease : Lease) : Prop :=
  lease.1 ≤ s.lastId ∧ ∀ r ∈ s.tasks.rows, r.id = lease.1 → lease.2 ≤ r.leaseEpoch

/-- What holds of the row that runs under a lease, as long as there is one. -/
def WhileHeld (s : Cluster) (lease : Lease) (P : ScheduledTask → Prop) : Prop :=
  ∀ r ∈ s.tasks.rows, r.status = .running → r.lease = lease → P r

/-- What a row read under a lease says of the row that is there now. -/
structure Snapshot (s : Cluster) (task : ScheduledTask) : Prop where
  knows : s.Knows task.lease
  attempts : s.WhileHeld task.lease fun r => r.attempts = task.attempts
  maxAttempts : ∀ r ∈ s.tasks.rows, r.id = task.id → r.maxAttempts = task.maxAttempts

def Unstarted (s : Cluster) (lease : Lease) : Prop :=
  s.WhileHeld lease fun r => r.startedAt = none

def Started (s : Cluster) (lease : Lease) : Prop :=
  s.WhileHeld lease fun r => r.startedAt ≠ none

def Undispatched (s : Cluster) (lease : Lease) : Prop :=
  s.WhileHeld lease fun r => r.dispatchedAt = none

def Good (s : Cluster) : Process → Prop
  | .claimed _ tasks => ∀ task ∈ tasks, s.Snapshot task ∧ s.Unstarted task.lease
  | .timer entry => s.Snapshot entry.task ∧ s.Unstarted entry.task.lease
  | .releasing _ => True
  | .firing entry stage dispatchMark =>
    s.Snapshot entry.task ∧
      (if stage = .confirming then s.Unstarted entry.task.lease else s.Started entry.task.lease) ∧
      (dispatchMark = .unset → s.Undispatched entry.task.lease)
  | .reaping expired => ∀ task ∈ expired, s.Snapshot task

end Cluster

section Processes

variable {options : ℕ → ExecutorOptions} {s t : Cluster} {e : Event} {lease : Lease}

section Stepped

variable (h : Stepped options s e t)
include h

theorem knows_next (hk : s.Knows lease) : t.Knows lease := by
  refine ⟨hk.1.trans h.lastId_le, ?_⟩
  intro r' hr' hid
  cases h.origin hr' with
  | changed r hr hchange =>
    rw [hchange.id_eq] at hid
    exact (hk.2 r hr hid).trans hchange.epoch_le
  | inserted id occurrence above last row =>
    -- the ids of new rows are above those of the leases given out
    subst row
    have hid : id = lease.1 := hid
    have hle := hk.1
    omega

/-- **A row that runs under a known lease ran under it before the step.** -/
theorem held_next {r' : ScheduledTask} (hk : s.Knows lease) (hr' : r' ∈ t.tasks.rows)
    (running : r'.status = .running) (hlease : r'.lease = lease) :
    ∃ r ∈ s.tasks.rows, r.lease = lease ∧ Change.Held (s.writer e) r r' := by
  cases h.origin hr' with
  | changed r hr hchange =>
    obtain ⟨hid, hepoch⟩ : r'.id = lease.1 ∧ r'.leaseEpoch = lease.2 := by
      rw [← hlease]
      exact ⟨rfl, rfl⟩
    have hle := hk.2 r hr (hchange.id_eq ▸ hid)
    have hheld := hchange.epoch_le
    have heq : r'.leaseEpoch = r.leaseEpoch := by omega
    refine ⟨r, hr, ?_, hchange.held running heq⟩
    rw [← hlease, ScheduledTask.lease, ScheduledTask.lease, hchange.id_eq, heq]
  | inserted id occurrence above last row =>
    subst row
    cases running

theorem whileHeld_next {P : ScheduledTask → Prop} (hk : s.Knows lease) (hP : s.WhileHeld lease P)
    (keep : ∀ {r r'}, P r → r.lease = lease → Change.Held (s.writer e) r r' → P r') :
    t.WhileHeld lease P := by
  intro r' hr' running hlease
  obtain ⟨r, hr, hrlease, hheld⟩ := held_next h hk hr' running hlease
  exact keep (hP r hr hheld.running hrlease) hrlease hheld

theorem snapshot_next {task : ScheduledTask} (hs : s.Snapshot task) : t.Snapshot task where
  knows := knows_next h hs.knows
  attempts := by
    refine whileHeld_next h hs.knows hs.attempts ?_
    intro r r' hr _ hheld
    rw [hheld.attempts, hr]
  maxAttempts := by
    intro r' hr' hid
    cases h.origin hr' with
    | changed r hr hchange =>
      rw [hchange.maxAttempts_eq]
      exact hs.maxAttempts r hr (hchange.id_eq ▸ hid)
    | inserted id occurrence above last row =>
      subst row
      have hid : id = task.id := hid
      have hle : task.id ≤ s.lastId := hs.knows.1
      omega

theorem started_next (hk : s.Knows lease) (hs : s.Started lease) : t.Started lease := by
  refine whileHeld_next h hk hs ?_
  intro r r' hr _ hheld
  rcases hheld.started with heq | ⟨hne, -⟩
  · rwa [heq]
  · exact hne

/-- Only the fire that confirms a lease starts its row. -/
theorem unstarted_next (hk : s.Knows lease) (hs : s.Unstarted lease)
    (other : ∀ entry dispatchMark, s.writer e = some (.firing entry .confirming dispatchMark) →
      entry.task.lease ≠ lease) : t.Unstarted lease := by
  refine whileHeld_next h hk hs ?_
  intro r r' hr hrlease hheld
  rcases hheld.started with heq | ⟨-, entry, dispatchMark, hw, hlease⟩
  · rwa [heq]
  · exact absurd (hlease.trans hrlease) (other entry dispatchMark hw)

/-- Only the fire that holds a lease marks the dispatch of its row. -/
theorem undispatched_next (hk : s.Knows lease)
    (hs : s.Undispatched lease)
    (other : ∀ entry stage, s.writer e = some (.firing entry stage .writing) →
      entry.task.lease ≠ lease) : t.Undispatched lease := by
  refine whileHeld_next h hk hs ?_
  intro r r' hr hrlease hheld
  rcases hheld.dispatched with heq | ⟨entry, stage, hw, hlease⟩
  · rwa [heq]
  · exact absurd (hlease.trans hrlease) (other entry stage hw)

end Stepped

def Process.leases : Process → List Lease
  | claimed _ tasks => tasks.map ScheduledTask.lease
  | timer entry => [entry.task.lease]
  | firing entry _ _ => [entry.task.lease]
  | releasing _ => []
  | reaping _ => []

/-- A process may go on relying on what it relies on while another one writes. -/
theorem good_next {p : Process} (h : Stepped options s e t) (hp : s.Good p)
    (other : ∀ q, s.writer e = some q → ∀ lease ∈ q.leases, lease ∉ p.leases) : t.Good p := by
  have confirming : ∀ lease ∈ p.leases, ∀ entry dispatchMark,
      s.writer e = some (.firing entry .confirming dispatchMark) → entry.task.lease ≠ lease := by
    rintro lease hlease entry dispatchMark hw rfl
    exact other _ hw _ (List.mem_singleton.mpr rfl) hlease
  have writing : ∀ lease ∈ p.leases, ∀ entry stage,
      s.writer e = some (.firing entry stage .writing) → entry.task.lease ≠ lease := by
    rintro lease hlease entry stage hw rfl
    exact other _ hw _ (List.mem_singleton.mpr rfl) hlease
  cases p with
  | claimed host tasks =>
    intro task htask
    obtain ⟨hs, hu⟩ := hp task htask
    exact ⟨snapshot_next h hs,
      unstarted_next h hs.knows hu (confirming _ (List.mem_map_of_mem htask))⟩
  | timer entry =>
    obtain ⟨hs, hu⟩ := hp
    exact ⟨snapshot_next h hs,
      unstarted_next h hs.knows hu (confirming _ (by simp [Process.leases]))⟩
  | releasing claim => trivial
  | firing entry stage dispatchMark =>
    obtain ⟨hs, hstage, hmark⟩ := hp
    refine ⟨snapshot_next h hs, ?_, ?_⟩
    · split_ifs at hstage ⊢ with hconfirming
      · exact unstarted_next h hs.knows hstage (confirming _ (by simp [Process.leases]))
      · exact started_next h hs.knows hstage
    · intro hunset
      exact undispatched_next h hs.knows (hmark hunset) (writing _ (by simp [Process.leases]))
  | reaping expired => exact fun task htask => snapshot_next h (hp task htask)

end Processes

end N8n.Scheduler
