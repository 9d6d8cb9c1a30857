import N8n.PythonTaskRunner.TaskRunner

/-!
# The tasks of a runner

Every task that got its settings has one execution, which keeps its entry in `running_tasks` until
it has sent its last message. A cancel stops the process that the task has at that time: when the
execution has yet to create or to start its process, the process is started after the cancel. And an
entry that waits for its settings when the connection is lost is kept for ever.

## Main definitions

* `TaskRunner.IsSound`: what is promised of the entries, the last messages and the processes
* `TaskRunner.Slip`: a task is cancelled before its process is started, or waits for its settings
  while the runner reconnects, or an offer is accepted for a task that is running
* `TaskRunner.Sound`: the invariant

## Main results

* `bookkeeping_run`: runs without a slip are sound
* `not_isSound`: a process that is started after its task was cancelled, and an entry of a
  connection that was lost
-/

namespace N8n.PythonTaskRunner

open OrderedMap

namespace TaskRunner

variable {maxConcurrency : ℕ} {t u : TaskRunner} {s e id : ℕ}

/-! ## What is promised -/

def InProgress (t : TaskRunner) (s : ℕ) : Prop :=
  ∃ e < t.executionCount, (t.executions e).task = s ∧ (t.executions e).stage ≠ .finished

structure IsSound (maxConcurrency : ℕ) (t : TaskRunner) : Prop where
  capacity : t.runningTasks.size ≤ maxConcurrency
  finals : t.finals.Nodup
  cancelled : ∀ s < t.taskCount, (t.tasks s).cancelled = true →
    ∀ e < t.executionCount, (t.executions e).task = s → (t.executions e).alive = false
  entries : ∀ id s, t.runningTasks.get? id = some s →
    t.InProgress s ∨ (t.tasks s).connection = t.connections

/-- A task is cancelled whose execution has not started its process yet. The runner reconnects while
a task waits for its settings. Or an offer is accepted for a task that is running. -/
def Slip (t : TaskRunner) : Event → Prop
  | .taskCancel id => ∃ s, t.runningTasks.get? id = some s ∧
      ∃ e < t.executionCount, (t.executions e).task = s ∧ (t.executions e).stage = .scheduled
  | .stopped => ∃ s e, t.handler = some (.stopping s (some e)) ∧ (t.executions e).stage = .starting
  | .connect => ∃ id s, t.runningTasks.get? id = some s ∧
      (t.tasks s).status = .waitingForSettings
  | .taskOfferAccept _ id => (t.runningTasks.get? id).isSome
  | .wait _ | .disconnect | .runnerRegistered | .taskSettings _ _ | .drain | .sendOffers _
  | .taskOffer _ _ _ _ | .begins _ _ | .starts _ _ | .exits _ | .returns _ _ | .rpcCall _ _
  | .taskDone _ _ | .taskError _ _ => False

/-! ## The invariant -/

structure Sound (maxConcurrency : ℕ) (t : TaskRunner) : Prop where
  capacity : t.runningTasks.size ≤ maxConcurrency
  entry : ∀ id s, t.runningTasks.get? id = some s → s < t.taskCount ∧ (t.tasks s).taskId = id
  /-- They wait for their settings on the current connection, or have an execution. -/
  covered : ∀ id s, t.runningTasks.get? id = some s →
    (t.tasks s).status = .waitingForSettings ∧ (t.tasks s).connection = t.connections ∨
      t.InProgress s
  execution : ∀ e < t.executionCount, (t.executions e).task < t.taskCount ∧
    (t.tasks (t.executions e).task).taskId = (t.executions e).taskId ∧
      (t.tasks (t.executions e).task).status ≠ .waitingForSettings
  unique : ∀ e < t.executionCount, ∀ e' < t.executionCount,
    (t.executions e).task = (t.executions e').task → e = e'
  /-- They keep the entry until they have finished. -/
  kept : ∀ e < t.executionCount, (t.executions e).stage ≠ .finished →
    t.runningTasks.get? (t.executions e).taskId = some (t.executions e).task
  /-- Only a process that was started, and whose thread has not returned, is alive. -/
  alive : ∀ e < t.executionCount, (t.executions e).alive = true →
    (t.executions e).stage = .running
  process : ∀ e < t.executionCount,
    (t.executions e).stage = .starting ∨ (t.executions e).stage = .running →
      (t.tasks (t.executions e).task).process = some e
  /-- A cancel that was handled has left no process to be started or running. -/
  cancelled : ∀ s < t.taskCount, (t.tasks s).cancelled = true →
    (t.tasks s).status ≠ .waitingForSettings ∧ ∀ e < t.executionCount, (t.executions e).task = s →
      (t.executions e).stage ≠ .scheduled ∧ (t.executions e).stage ≠ .starting ∧
        (t.executions e).alive = false
  /-- A cancel that is handled has found the process that it stops. -/
  stopping : ∀ s process, t.handler = some (.stopping s process) → s < t.taskCount ∧
    (t.tasks s).status ≠ .waitingForSettings ∧ ∀ e < t.executionCount, (t.executions e).task = s →
      (t.executions e).stage ≠ .scheduled ∧
        ((t.executions e).stage = .starting ∨ (t.executions e).stage = .running → process = some e)
  finals : t.finals.Nodup
  finished : ∀ s ∈ t.finals, ∃ e < t.executionCount,
    (t.executions e).task = s ∧ (t.executions e).stage = .finished

theorem Sound.isSound (h : t.Sound maxConcurrency) : t.IsSound maxConcurrency where
  capacity := h.capacity
  finals := h.finals
  cancelled s hs hcancelled e he htask := ((h.cancelled s hs hcancelled).2 e he htask).2.2
  entries id s hs := by
    obtain hwaiting | hexecution := h.covered id s hs
    · exact .inr hwaiting.2
    · exact .inl hexecution

theorem Sound.initial : Sound maxConcurrency initial where
  capacity := Nat.zero_le _
  entry := nofun
  covered := nofun
  execution := nofun
  unique := nofun
  kept := nofun
  alive := nofun
  process := nofun
  cancelled := nofun
  stopping := nofun
  finals := List.nodup_nil
  finished := nofun

/-- The tasks, the executions and the connection are the same, and no other handler stops a
process. -/
structure Same (t u : TaskRunner) : Prop where
  tasks : u.tasks = t.tasks
  taskCount : u.taskCount = t.taskCount
  runningTasks : u.runningTasks = t.runningTasks
  executions : u.executions = t.executions
  executionCount : u.executionCount = t.executionCount
  connections : u.connections = t.connections
  finals : u.finals = t.finals
  handler : ∀ s process, u.handler = some (.stopping s process) →
    t.handler = some (.stopping s process)

theorem Sound.same (h : t.Sound maxConcurrency) (hu : Same t u) : u.Sound maxConcurrency := by
  obtain ⟨htasks, htaskCount, hrunning, hexecutions, hexecutionCount, hconnections, hfinals,
    hhandler⟩ := hu
  cases u
  dsimp only at htasks htaskCount hrunning hexecutions hexecutionCount hconnections hfinals hhandler
  subst htasks htaskCount hrunning hexecutions hexecutionCount hconnections hfinals
  exact ⟨h.capacity, h.entry, h.covered, h.execution, h.unique, h.kept, h.alive, h.process,
    h.cancelled, fun s process hs => h.stopping s process (hhandler s process hs), h.finals,
    h.finished⟩

/-! ## Offers -/

theorem Same.refl (t : TaskRunner) : Same t t := ⟨rfl, rfl, rfl, rfl, rfl, rfl, rfl, fun _ _ => id⟩

theorem Same.trans {v : TaskRunner} (h : Same t u) (k : Same u v) : Same t v :=
  ⟨k.tasks.trans h.tasks, k.taskCount.trans h.taskCount, k.runningTasks.trans h.runningTasks,
    k.executions.trans h.executions, k.executionCount.trans h.executionCount,
    k.connections.trans h.connections, k.finals.trans h.finals,
    fun s process hs => h.handler s process (k.handler s process hs)⟩

theorem same_sendOffers (t : TaskRunner) : Same t (t.sendOffers maxConcurrency).2 := by
  unfold sendOffers
  split_ifs
  · exact ⟨rfl, rfl, rfl, rfl, rfl, rfl, rfl, fun _ _ => id⟩
  · exact .refl t

theorem same_setOffering (t : TaskRunner) (sender : Sender) (n : ℕ) :
    Same t (t.setOffering sender n) := by
  cases sender with
  | coroutine => exact ⟨rfl, rfl, rfl, rfl, rfl, rfl, rfl, fun _ _ => id⟩
  | other i => exact ⟨rfl, rfl, rfl, rfl, rfl, rfl, rfl, fun _ _ => id⟩
  | handler =>
    refine ⟨rfl, rfl, rfl, rfl, rfl, rfl, rfl, fun s process hs => ?_⟩
    unfold setOffering at hs
    dsimp only at hs
    split_ifs at hs
    cases hs

theorem same_loopOffers {sender : Sender} (hs : t.loopOffers maxConcurrency sender = some u) :
    Same t u := by
  have hsend : ∀ sender, Same t
      ((t.sendOffers maxConcurrency).2.setOffering sender (t.sendOffers maxConcurrency).1) :=
    fun sender => (same_sendOffers t).trans (same_setOffering _ sender _)
  cases sender with
  | coroutine =>
    unfold loopOffers at hs
    dsimp only at hs
    split_ifs at hs <;> cases hs
    · exact hsend .coroutine
    · exact ⟨rfl, rfl, rfl, rfl, rfl, rfl, rfl, fun _ _ => id⟩
  | other i =>
    unfold loopOffers at hs
    dsimp only at hs
    split_ifs at hs <;> cases hs
    · exact hsend (.other i)
    · exact ⟨rfl, rfl, rfl, rfl, rfl, rfl, rfl, fun _ _ => id⟩
  | handler => cases hs

theorem same_taskOffer {sender : Sender} {offerId jitter : ℕ} {sent : Bool}
    (hs : t.taskOffer sender offerId jitter sent = some u) : Same t u := by
  unfold taskOffer at hs
  split at hs
  · cases hs
    have hopen : Same t { t with
        openOffers := t.openOffers.set offerId
          (t.time + (offerValidity + jitter) + offerValidityLatencyBuffer) } :=
      ⟨rfl, rfl, rfl, rfl, rfl, rfl, rfl, fun _ _ => id⟩
    exact hopen.trans (same_setOffering _ sender _)
  · cases hs

/-! ## Messages -/

/-- A table after an update: in the place of the update, and elsewhere. -/
theorem updated {α : Type} {f g : ℕ → α} {i : ℕ} {a : α} (h : g = Function.update f i a) :
    g i = a ∧ ∀ j, j ≠ i → g j = f j :=
  ⟨by rw [h, Function.update_self], fun j hne => by rw [h, Function.update_of_ne hne]⟩

theorem updated_rel {α : Type} {f g : ℕ → α} {i : ℕ} {a : α} (h : g = Function.update f i a)
    (r : α → α → Prop) (hi : r a (f i)) (hrefl : ∀ b, r b b) (j : ℕ) : r (g j) (f j) := by
  obtain rfl | hne := eq_or_ne j i
  · exact (updated h).1 ▸ hi
  · exact (updated h).2 j hne ▸ hrefl _

/-- A task that waits, or does not wait, as before, under the same identifier. -/
structure SameTask (a b : TaskState) : Prop where
  taskId : a.taskId = b.taskId
  connection : a.connection = b.connection
  waiting : a.status = .waitingForSettings ↔ b.status = .waitingForSettings

theorem SameTask.refl (a : TaskState) : SameTask a a := ⟨rfl, rfl, Iff.rfl⟩

/-- An execution of the same task, that has finished if it had. -/
structure SameExecution (a b : Execution) : Prop where
  task : a.task = b.task
  taskId : a.taskId = b.taskId
  finished : a.stage = .finished ↔ b.stage = .finished

theorem SameExecution.refl (a : Execution) : SameExecution a a := ⟨rfl, rfl, Iff.rfl⟩

section Sound

variable (h : t.Sound maxConcurrency) {tasks : ℕ → TaskState} {executions : ℕ → Execution}
  {continueOnFail : Bool}
include h

/-- What concerns the processes is to be shown when nothing else changes. -/
theorem Sound.carry {handler : Option Handler} (htask : ∀ s, SameTask (tasks s) (t.tasks s))
    (hexec : ∀ e, SameExecution (executions e) (t.executions e))
    (halive : ∀ e < t.executionCount, (executions e).alive = true →
      (executions e).stage = .running)
    (hprocess : ∀ e < t.executionCount,
      (executions e).stage = .starting ∨ (executions e).stage = .running →
        (tasks (t.executions e).task).process = some e)
    (hcancelled : ∀ s < t.taskCount, (tasks s).cancelled = true →
      (t.tasks s).status ≠ .waitingForSettings ∧ ∀ e < t.executionCount,
        (t.executions e).task = s → (executions e).stage ≠ .scheduled ∧
          (executions e).stage ≠ .starting ∧ (executions e).alive = false)
    (hstopping : ∀ s process, handler = some (.stopping s process) → s < t.taskCount ∧
      (t.tasks s).status ≠ .waitingForSettings ∧ ∀ e < t.executionCount,
        (t.executions e).task = s → (executions e).stage ≠ .scheduled ∧
          ((executions e).stage = .starting ∨ (executions e).stage = .running →
            process = some e)) :
    Sound maxConcurrency { t with
      tasks := tasks
      executions := executions
      handler := handler } := by
  refine ⟨h.capacity, fun id s hs => ?_, fun id s hs => ?_, fun e he => ?_,
    fun e₁ he₁ e₂ he₂ heq => ?_, fun e he hstage => ?_, halive, fun e he hstage => ?_,
    fun s hs hyes => ?_, fun s process hs => ?_, h.finals, fun s hs => ?_⟩
  · exact ⟨(h.entry id s hs).1, (htask s).taskId.trans (h.entry id s hs).2⟩
  · obtain ⟨hwaiting, hconnection⟩ | ⟨e, he, heq, hstage⟩ := h.covered id s hs
    · exact .inl ⟨(htask s).waiting.mpr hwaiting, (htask s).connection.trans hconnection⟩
    · exact .inr ⟨e, he, (hexec e).task.trans heq, mt (hexec e).finished.mp hstage⟩
  · obtain ⟨hlt, hid, hstatus⟩ := h.execution e he
    dsimp only
    rw [(hexec e).task, (hexec e).taskId]
    exact ⟨hlt, (htask _).taskId.trans hid, mt (htask _).waiting.mp hstatus⟩
  · exact h.unique e₁ he₁ e₂ he₂ ((hexec e₁).task.symm.trans (heq.trans (hexec e₂).task))
  · dsimp only
    rw [(hexec e).task, (hexec e).taskId]
    exact h.kept e he (mt (hexec e).finished.mpr hstage)
  · dsimp only
    rw [(hexec e).task]
    exact hprocess e he hstage
  · obtain ⟨hstatus, hstages⟩ := hcancelled s hs hyes
    exact ⟨mt (htask s).waiting.mp hstatus,
      fun e he heq => hstages e he ((hexec e).task.symm.trans heq)⟩
  · obtain ⟨hlt, hstatus, hstages⟩ := hstopping s process hs
    exact ⟨hlt, mt (htask s).waiting.mp hstatus,
      fun e he heq => hstages e he ((hexec e).task.symm.trans heq)⟩
  · obtain ⟨e, he, heq, hstage⟩ := h.finished s hs
    exact ⟨e, he, (hexec e).task.trans heq, (hexec e).finished.mpr hstage⟩

/-- A new task waits for its settings, under an identifier that is free. -/
theorem Sound.accept {offers : OrderedMap ℕ ℚ}
    (htasks : tasks = Function.update t.tasks t.taskCount
      ⟨id, .waitingForSettings, none, t.connections, false⟩)
    (hfree : t.runningTasks.get? id = none) (hroom : t.runningTasks.size < maxConcurrency) :
    Sound maxConcurrency { t with
      tasks := tasks
      openOffers := offers
      runningTasks := t.runningTasks.set id t.taskCount
      taskCount := t.taskCount + 1 } := by
  have hnew := (updated htasks).1
  have hold : ∀ s < t.taskCount, tasks s = t.tasks s := fun s hs => (updated htasks).2 s hs.ne
  have hget : ∀ id' s, (t.runningTasks.set id t.taskCount).get? id' = some s →
      id' = id ∧ s = t.taskCount ∨ s < t.taskCount ∧ t.runningTasks.get? id' = some s := by
    intro id' s hs
    rw [get?_set] at hs
    split_ifs at hs with heq
    · exact .inl ⟨heq, (Option.some.inj hs).symm⟩
    · exact .inr ⟨(h.entry id' s hs).1, hs⟩
  have hexec : ∀ e < t.executionCount,
      tasks (t.executions e).task = t.tasks (t.executions e).task :=
    fun e he => hold _ (h.execution e he).1
  have hlt : ∀ s, s < t.taskCount + 1 → s < t.taskCount ∨ s = t.taskCount := fun s hs =>
    Nat.lt_succ_iff_lt_or_eq.mp hs
  refine ⟨?_, fun id' s hs => ?_, fun id' s hs => ?_, fun e he => ?_, h.unique,
    fun e he hstage => ?_, h.alive, fun e he hstage => ?_, fun s hs hcancelled => ?_,
    fun s process hs => ?_, h.finals, h.finished⟩
  · exact (size_set_of_fresh hfree).trans_le hroom
  · obtain ⟨rfl, rfl⟩ | ⟨hs', hget'⟩ := hget id' s hs
    · exact ⟨Nat.lt_succ_self _, congrArg TaskState.taskId hnew⟩
    · exact ⟨hs'.trans (Nat.lt_succ_self _),
        (congrArg TaskState.taskId (hold s hs')).trans (h.entry id' s hget').2⟩
  · dsimp only
    obtain ⟨rfl, rfl⟩ | ⟨hs', hget'⟩ := hget id' s hs
    · rw [hnew]
      exact .inl ⟨rfl, rfl⟩
    · rw [hold s hs']
      exact h.covered id' s hget'
  · obtain ⟨htask, hid, hstatus⟩ := h.execution e he
    dsimp only
    rw [hexec e he]
    exact ⟨htask.trans (Nat.lt_succ_self _), hid, hstatus⟩
  · have hkept := h.kept e he hstage
    refine (get?_set_of_ne ?_).trans hkept
    rintro heq
    rw [heq, hfree] at hkept
    cases hkept
  · dsimp only
    rw [hexec e he]
    exact h.process e he hstage
  · dsimp only at hcancelled ⊢
    obtain hs' | rfl := hlt s hs
    · rw [hold s hs'] at hcancelled ⊢
      exact h.cancelled s hs' hcancelled
    · rw [hnew] at hcancelled
      cases hcancelled
  · obtain ⟨hs', hstatus, hstages⟩ := h.stopping s process hs
    dsimp only
    rw [hold s hs']
    exact ⟨hs'.trans (Nat.lt_succ_self _), hstatus, hstages⟩

theorem Sound.taskOfferAccept {offerId : ℕ} (hslip : ¬ t.Slip (.taskOfferAccept offerId id)) :
    (t.taskOfferAccept maxConcurrency offerId id).Sound maxConcurrency := by
  have hfree : t.runningTasks.get? id = none := by simpa [Slip] using hslip
  unfold TaskRunner.taskOfferAccept
  split
  · exact h
  · split_ifs with hexpired hfull
    · exact h
    · exact h
    · exact h.accept rfl hfree (not_le.mp hfull)

/-- A task that gets its settings has its first execution. -/
theorem Sound.schedule
    (hentry : t.runningTasks.get? id = some s) (hwaiting : (t.tasks s).status = .waitingForSettings)
    (htasks : tasks = Function.update t.tasks s { t.tasks s with status := .running })
    (hexecutions : executions = Function.update t.executions t.executionCount
      ⟨id, s, continueOnFail, .scheduled, false⟩) :
    Sound maxConcurrency { t with
      tasks := tasks
      executions := executions
      executionCount := t.executionCount + 1 } := by
  obtain ⟨hs, hid⟩ := h.entry id s hentry
  obtain ⟨hself, hother⟩ := updated htasks
  have hnew := (updated hexecutions).1
  have hold : ∀ e < t.executionCount, executions e = t.executions e :=
    fun e he => (updated hexecutions).2 e he.ne
  -- there was no execution of the task before
  have hnone : ∀ e < t.executionCount, (t.executions e).task ≠ s := fun e he heq =>
    (h.execution e he).2.2 (heq ▸ hwaiting)
  have hlt : ∀ e, e < t.executionCount + 1 → e < t.executionCount ∨ e = t.executionCount :=
    fun e he => Nat.lt_succ_iff_lt_or_eq.mp he
  have hprogress : ∀ s', t.InProgress s' → InProgress { t with
      tasks := tasks, executions := executions, executionCount := t.executionCount + 1 } s' := by
    rintro s' ⟨e, he, htask, hstage⟩
    refine ⟨e, he.trans (Nat.lt_succ_self _), ?_⟩
    dsimp only
    rw [hold e he]
    exact ⟨htask, hstage⟩
  refine ⟨h.capacity, fun id' s' hs' => ?_, fun id' s' hs' => ?_, fun e he => ?_,
    fun e he e' he' htask => ?_, fun e he hstage => ?_, fun e he halive => ?_,
    fun e he hstage => ?_, fun s' hs' hcancelled => ?_, fun s' process hs' => ?_, h.finals,
    fun s' hs' => ?_⟩
  · dsimp only
    obtain ⟨hlt', hid'⟩ := h.entry id' s' hs'
    refine ⟨hlt', ?_⟩
    by_cases heq : s' = s
    · rw [heq, hself]
      exact heq ▸ hid'
    · rw [hother s' heq]
      exact hid'
  · by_cases heq : s' = s
    · refine .inr ⟨t.executionCount, Nat.lt_succ_self _, ?_, ?_⟩
      · exact (congrArg Execution.task hnew).trans heq.symm
      · exact fun hfinished => nomatch (congrArg Execution.stage hnew).symm.trans hfinished
    · dsimp only
      rw [hother s' heq]
      exact (h.covered id' s' hs').imp_right (hprogress s')
  · dsimp only
    obtain he | rfl := hlt e he
    · rw [hold e he, hother _ (hnone e he)]
      exact h.execution e he
    · rw [hnew, hself]
      exact ⟨hs, hid, nofun⟩
  · dsimp only at htask
    obtain he | rfl := hlt e he
    · obtain he' | rfl := hlt e' he'
      · rw [hold e he, hold e' he'] at htask
        exact h.unique e he e' he' htask
      · rw [hold e he, hnew] at htask
        exact absurd htask (hnone e he)
    · obtain he' | rfl := hlt e' he'
      · rw [hold e' he', hnew] at htask
        exact absurd htask.symm (hnone e' he')
      · rfl
  · dsimp only at hstage ⊢
    obtain he | rfl := hlt e he
    · rw [hold e he] at hstage ⊢
      exact h.kept e he hstage
    · rw [hnew]
      exact hentry
  · dsimp only at halive ⊢
    obtain he | rfl := hlt e he
    · rw [hold e he] at halive ⊢
      exact h.alive e he halive
    · rw [hnew] at halive
      cases halive
  · dsimp only at hstage ⊢
    obtain he | rfl := hlt e he
    · rw [hold e he] at hstage ⊢
      rw [hother _ (hnone e he)]
      exact h.process e he hstage
    · rw [hnew] at hstage
      obtain hstage | hstage := hstage <;> cases hstage
  · have hne : s' ≠ s := by
      rintro rfl
      dsimp only at hcancelled
      rw [hself] at hcancelled
      exact (h.cancelled s' hs hcancelled).1 hwaiting
    dsimp only at hcancelled ⊢
    rw [hother s' hne] at hcancelled ⊢
    obtain ⟨hstatus, hstages⟩ := h.cancelled s' hs' hcancelled
    refine ⟨hstatus, fun e he htask => ?_⟩
    obtain he | rfl := hlt e he
    · rw [hold e he] at htask ⊢
      exact hstages e he htask
    · rw [hnew] at htask
      exact absurd htask.symm hne
  · obtain ⟨hs', hstatus, hstages⟩ := h.stopping s' process hs'
    have hne : s' ≠ s := by
      rintro rfl
      exact hstatus hwaiting
    dsimp only
    rw [hother s' hne]
    refine ⟨hs', hstatus, fun e he htask => ?_⟩
    obtain he | rfl := hlt e he
    · rw [hold e he] at htask ⊢
      exact hstages e he htask
    · rw [hnew] at htask
      exact absurd htask.symm hne
  · obtain ⟨e, he, htask, hstage⟩ := h.finished s' hs'
    refine ⟨e, he.trans (Nat.lt_succ_self _), ?_⟩
    dsimp only
    rw [hold e he]
    exact ⟨htask, hstage⟩

theorem Sound.taskSettings : (t.taskSettings id continueOnFail).Sound maxConcurrency := by
  unfold TaskRunner.taskSettings
  split
  · exact h
  · next s hentry =>
    split_ifs with hwaiting
    · exact h.schedule hentry hwaiting rfl rfl
    · exact h

theorem Sound.forget (hentry : t.runningTasks.get? id = some s)
    (hwaiting : (t.tasks s).status = .waitingForSettings) :
    Sound maxConcurrency { t with runningTasks := t.runningTasks.delete id } := by
  have hget : ∀ id' s', (t.runningTasks.delete id).get? id' = some s' →
      t.runningTasks.get? id' = some s' := by
    intro id' s' hs'
    rw [get?_delete] at hs'
    split_ifs at hs'
    exact hs'
  refine ⟨(size_delete_le _ _).trans h.capacity,
    fun id' s' hs' => h.entry id' s' (hget id' s' hs'),
    fun id' s' hs' => h.covered id' s' (hget id' s' hs'), h.execution, h.unique,
    fun e he hstage => ?_, h.alive, h.process, h.cancelled, h.stopping, h.finals, h.finished⟩
  have hkept := h.kept e he hstage
  refine (get?_delete_of_ne ?_).trans hkept
  intro heq
  rw [heq, hentry] at hkept
  exact (h.execution e he).2.2 (Option.some.inj hkept ▸ hwaiting)

/-- A task is aborted, whose execution has created its process. -/
theorem Sound.abort
    (hs : s < t.taskCount) (hrunning : (t.tasks s).status = .running)
    (htasks : tasks = Function.update t.tasks s { t.tasks s with status := .aborting })
    (hcreated : ∀ e < t.executionCount, (t.executions e).task = s →
      (t.executions e).stage ≠ .scheduled) :
    Sound maxConcurrency { t with
      tasks := tasks
      handler := some (.stopping s (t.tasks s).process) } := by
  have hprocess := updated_rel htasks (fun a b => a.process = b.process) rfl fun _ => rfl
  have hcancelled := updated_rel htasks (fun a b => a.cancelled = b.cancelled) rfl fun _ => rfl
  refine h.carry (updated_rel htasks _ ⟨rfl, rfl, ?_⟩ .refl) (fun _ => .refl _) h.alive
    (fun e he hstage => (hprocess _).trans (h.process e he hstage))
    (fun s' hs' hyes => h.cancelled s' hs' ((hcancelled s').symm.trans hyes))
    fun s' process hs' => ?_
  · exact iff_of_false nofun (hrunning ▸ nofun)
  · obtain ⟨rfl, rfl⟩ := Handler.stopping.inj (Option.some.inj hs')
    refine ⟨hs, hrunning ▸ nofun, fun e he htask => ⟨hcreated e he htask, fun hstage => ?_⟩⟩
    exact htask ▸ h.process e he hstage

theorem Sound.taskCancel (hslip : ¬ t.Slip (.taskCancel id)) :
    (t.taskCancel maxConcurrency id).Sound maxConcurrency := by
  unfold TaskRunner.taskCancel
  split
  · exact h
  · next s hentry =>
    split
    · next hwaiting =>
      have hforget := h.forget hentry hwaiting
      exact hforget.same ((same_sendOffers _).trans (same_setOffering _ .handler _))
    · next hrunning =>
      refine h.abort (h.entry id s hentry).1 hrunning rfl fun e he htask hstage => ?_
      exact hslip ⟨s, hentry, e, he, htask, hstage⟩
    · exact h

/-- A cancel was handled, and no execution of its task is before or in its process. -/
theorem Sound.cancel
    (hstatus : (t.tasks s).status ≠ .waitingForSettings)
    (htasks : tasks = Function.update t.tasks s { t.tasks s with cancelled := true })
    (hsame : ∀ e, (executions e).task = (t.executions e).task ∧
      (executions e).taskId = (t.executions e).taskId ∧
      (executions e).stage = (t.executions e).stage ∧
      ((executions e).alive = true → (t.executions e).alive = true))
    (hdead : ∀ e < t.executionCount, (t.executions e).task = s →
      (t.executions e).stage ≠ .scheduled ∧ (t.executions e).stage ≠ .starting ∧
        (executions e).alive = false) :
    Sound maxConcurrency { t with tasks := tasks, executions := executions, handler := none } := by
  have hprocess := updated_rel htasks (fun a b => a.process = b.process) rfl fun _ => rfl
  refine h.carry (updated_rel htasks _ ⟨rfl, rfl, Iff.rfl⟩ .refl) (fun e => ?_)
    (fun e he hlive => ?_) (fun e he hstage => ?_) (fun s' hs' hcancelled => ?_) nofun
  · obtain ⟨heq, hid, hstage, -⟩ := hsame e
    exact ⟨heq, hid, by rw [hstage]⟩
  · exact (hsame e).2.2.1.trans (h.alive e he ((hsame e).2.2.2 hlive))
  · rw [(hsame e).2.2.1] at hstage
    exact (hprocess _).trans (h.process e he hstage)
  · by_cases heq : s' = s
    · subst heq
      refine ⟨hstatus, fun e he htask => ?_⟩
      rw [(hsame e).2.2.1]
      exact hdead e he htask
    · rw [(updated htasks).2 s' heq] at hcancelled
      obtain ⟨hnot, hstages⟩ := h.cancelled s' hs' hcancelled
      refine ⟨hnot, fun e he htask => ?_⟩
      obtain ⟨hsch, hst, hlive⟩ := hstages e he htask
      rw [(hsame e).2.2.1]
      exact ⟨hsch, hst, Bool.eq_false_iff.mpr fun hyes =>
        nomatch hlive.symm.trans ((hsame e).2.2.2 hyes)⟩

theorem Sound.stopped (hs : t.stopped = some u) (hslip : ¬ t.Slip .stopped) :
    u.Sound maxConcurrency := by
  unfold TaskRunner.stopped at hs
  split at hs
  · next s process hhandler =>
    cases hs
    obtain ⟨-, hstatus, hstages⟩ := h.stopping s process hhandler
    -- a process that is alive is the one that is stopped
    have hlive : ∀ e < t.executionCount, (t.executions e).task = s →
        (t.executions e).alive = true → process = some e := fun e he htask hlive =>
      (hstages e he htask).2 (.inr (h.alive e he hlive))
    cases process with
    | none =>
      refine h.cancel hstatus rfl (fun e => ⟨rfl, rfl, rfl, id⟩) fun e he htask => ?_
      obtain ⟨hsch, hproc⟩ := hstages e he htask
      refine ⟨hsch, ?_, Bool.eq_false_iff.mpr fun hyes => ?_⟩
      · exact fun hstarting => nomatch hproc (.inl hstarting)
      · exact nomatch hlive e he htask hyes
    | some p =>
      refine h.cancel hstatus rfl (fun e => ?_) fun e he htask => ?_
      · by_cases heq : e = p
        · rw [heq, Function.update_self]
          exact ⟨rfl, rfl, rfl, nofun⟩
        · rw [Function.update_of_ne heq]
          exact ⟨rfl, rfl, rfl, id⟩
      · obtain ⟨hsch, hproc⟩ := hstages e he htask
        refine ⟨hsch, fun hstarting => ?_, ?_⟩
        · obtain rfl := Option.some.inj (hproc (.inl hstarting))
          exact hslip ⟨s, p, hhandler, hstarting⟩
        · by_cases heq : e = p
          · rw [heq, Function.update_self]
          · rw [Function.update_of_ne heq]
            refine Bool.eq_false_iff.mpr fun hyes => heq ?_
            exact (Option.some.inj (hlive e he htask hyes)).symm
  · cases hs

/-! ## Executions -/

/-- An execution goes on, with its process. -/
theorem Sound.advance {stage : Stage}
    {alive : Bool} (he : e < t.executionCount)
    (hexecutions : executions = Function.update t.executions e
      { t.executions e with stage := stage, alive := alive })
    (hbefore : (t.executions e).stage ≠ .finished) (hafter : stage ≠ .finished)
    (hscheduled : stage ≠ .scheduled)
    (hstarting : stage = .starting → (t.executions e).stage = .starting)
    (hrunning : stage = .running →
      (t.executions e).stage = .starting ∨ (t.executions e).stage = .running)
    (halive : alive = true → stage = .running ∧
      ((t.executions e).stage = .starting ∨ (t.executions e).alive = true)) :
    Sound maxConcurrency { t with executions := executions } := by
  obtain ⟨hself, hother⟩ := updated hexecutions
  -- a process is about to be started, or was
  have hprocess : ∀ e', (executions e').stage = .starting ∨ (executions e').stage = .running →
      (t.executions e').stage = .starting ∨ (t.executions e').stage = .running := by
    intro e' hstage
    by_cases heq : e' = e
    · rw [heq, hself] at hstage
      rw [heq]
      exact hstage.elim (fun hstage => .inl (hstarting hstage)) hrunning
    · rwa [hother e' heq] at hstage
  refine h.carry (fun _ => .refl _)
    (updated_rel hexecutions _ ⟨rfl, rfl, iff_of_false hafter hbefore⟩ .refl)
    (fun e' he' hlive => ?_) (fun e' he' hstage => h.process e' he' (hprocess e' hstage))
    (fun s hs hcancelled => ?_) fun s process hs => ?_
  · by_cases heq : e' = e
    · rw [heq, hself] at hlive ⊢
      exact (halive hlive).1
    · rw [hother e' heq] at hlive ⊢
      exact h.alive e' he' hlive
  · obtain ⟨hstatus, hstages⟩ := h.cancelled s hs hcancelled
    refine ⟨hstatus, fun e' he' htask => ?_⟩
    obtain ⟨hsch, hst, hdead⟩ := hstages e' he' htask
    by_cases heq : e' = e
    · subst heq
      rw [hself]
      refine ⟨hscheduled, fun hstage => hst (hstarting hstage), ?_⟩
      refine Bool.eq_false_iff.mpr fun hlive => ?_
      obtain hstage | hlive := (halive hlive).2
      · exact hst hstage
      · exact nomatch hdead.symm.trans hlive
    · rw [hother e' heq]
      exact ⟨hsch, hst, hdead⟩
  · obtain ⟨hlt, hstatus, hstages⟩ := h.stopping s process hs
    refine ⟨hlt, hstatus, fun e' he' htask => ?_⟩
    obtain ⟨hsch, hproc⟩ := hstages e' he' htask
    refine ⟨?_, fun hstage => hproc (hprocess e' hstage)⟩
    by_cases heq : e' = e
    · rw [heq, hself]
      exact hscheduled
    · rw [hother e' heq]
      exact hsch

theorem Sound.create (he : e < t.executionCount)
    (hscheduled : (t.executions e).stage = .scheduled)
    (htasks : tasks = Function.update t.tasks (t.executions e).task
      { t.tasks (t.executions e).task with process := some e })
    (hexecutions : executions = Function.update t.executions e
      { t.executions e with stage := .starting }) :
    Sound maxConcurrency { t with tasks := tasks, executions := executions } := by
  obtain ⟨hself, hother⟩ := updated hexecutions
  have hcancelled := updated_rel htasks (fun a b => a.cancelled = b.cancelled) rfl fun _ => rfl
  -- no other execution is before its process
  have hlater : ∀ {e'}, (t.executions e').stage ≠ .scheduled → executions e' = t.executions e' :=
    fun hstage => hother _ fun heq => hstage (heq ▸ hscheduled)
  refine h.carry (updated_rel htasks _ ⟨rfl, rfl, Iff.rfl⟩ .refl)
    (updated_rel hexecutions _ ⟨rfl, rfl, ?_⟩ .refl) (fun e' he' hlive => ?_)
    (fun e' he' hstage => ?_) (fun s hs hyes => ?_) fun s process hs => ?_
  · exact iff_of_false nofun (hscheduled ▸ nofun)
  · have halive := updated_rel hexecutions (fun a b => a.alive = b.alive) rfl (fun _ => rfl) e'
    have hstage := h.alive e' he' (halive.symm.trans hlive)
    rw [hlater (hstage ▸ Stage.noConfusion)]
    exact hstage
  · by_cases heq : e' = e
    · rw [heq, (updated htasks).1]
    · rw [hother e' heq] at hstage
      rw [(updated htasks).2 _ fun hsametask => heq (h.unique e' he' e he hsametask)]
      exact h.process e' he' hstage
  · obtain ⟨hstatus, hstages⟩ := h.cancelled s hs ((hcancelled s).symm.trans hyes)
    refine ⟨hstatus, fun e' he' htask => ?_⟩
    have hstage := hstages e' he' htask
    rw [hlater hstage.1]
    exact hstage
  · obtain ⟨hlt, hstatus, hstages⟩ := h.stopping s process hs
    refine ⟨hlt, hstatus, fun e' he' htask => ?_⟩
    have hstage := hstages e' he' htask
    rw [hlater hstage.1]
    exact hstage

/-- An execution has finished, and the entry of its task is gone. -/
theorem Sound.finish {finals : List ℕ} (he : e < t.executionCount)
    (hstage : (t.executions e).stage ≠ .finished) (hdead : (t.executions e).alive = false)
    (hfinals : finals = t.finals ∨ finals = t.finals ++ [(t.executions e).task]) :
    (finish { t with finals := finals } e).Sound maxConcurrency := by
  have hkept := h.kept e he hstage
  obtain ⟨executions, hexecutions⟩ : ∃ executions, executions = Function.update t.executions e
      { t.executions e with stage := .finished } := ⟨_, rfl⟩
  obtain ⟨hself, hother⟩ := updated hexecutions
  have hsame : ∀ e', (executions e').task = (t.executions e').task ∧
      (executions e').taskId = (t.executions e').taskId ∧
      (executions e').alive = (t.executions e').alive := by
    intro e'
    by_cases heq : e' = e
    · rw [heq, hself]
      exact ⟨rfl, rfl, rfl⟩
    · rw [hother e' heq]
      exact ⟨rfl, rfl, rfl⟩
  have hlate : ∀ e', (executions e').stage ≠ .finished →
      e' ≠ e ∧ (t.executions e').stage ≠ .finished := by
    intro e' hnot
    have hne : e' ≠ e := by
      rintro rfl
      exact hnot (congrArg Execution.stage hself)
    exact ⟨hne, hother e' hne ▸ hnot⟩
  have hget : ∀ id s, (t.runningTasks.delete (t.executions e).taskId).get? id = some s →
      id ≠ (t.executions e).taskId ∧ t.runningTasks.get? id = some s := by
    intro id s hs
    rw [get?_delete] at hs
    split_ifs at hs with hne
    exact ⟨hne, hs⟩
  have hdone : ∀ s, (∃ e' < t.executionCount, (t.executions e').task = s ∧
      (t.executions e').stage = .finished) → ∃ e' < t.executionCount, (executions e').task = s ∧
        (executions e').stage = .finished := by
    rintro s ⟨e', he', htask, hfinished⟩
    have hne : e' ≠ e := by
      rintro rfl
      exact hstage hfinished
    exact ⟨e', he', (hsame e').1.trans htask, (congrArg Execution.stage (hother e' hne)).trans
      hfinished⟩
  have hfinals' : finals.Nodup ∧ ∀ s ∈ finals, ∃ e' < t.executionCount, (executions e').task = s ∧
      (executions e').stage = .finished := by
    obtain rfl | rfl := hfinals
    · exact ⟨h.finals, fun s hs => hdone s (h.finished s hs)⟩
    · refine ⟨List.nodup_append.mpr ⟨h.finals, List.nodup_singleton _, ?_⟩, fun s hs => ?_⟩
      · -- the execution of a task with a last message has finished
        rintro s hs s' hs' rfl
        obtain ⟨e', he', htask, hfinished⟩ := h.finished s hs
        have heq := h.unique e' he' e he (htask.trans (List.mem_singleton.mp hs'))
        exact hstage (heq ▸ hfinished)
      · obtain hs | hs := List.mem_append.mp hs
        · exact hdone s (h.finished s hs)
        · refine ⟨e, he, (hsame e).1.trans (List.mem_singleton.mp hs).symm, ?_⟩
          exact congrArg Execution.stage hself
  have hsound : Sound maxConcurrency { t with
      executions := executions
      runningTasks := t.runningTasks.delete (t.executions e).taskId
      finals := finals } := by
    refine ⟨(size_delete_le _ _).trans h.capacity,
      fun id s hs => h.entry id s (hget id s hs).2, fun id s hs => ?_, fun e' he' => ?_,
      fun e₁ he₁ e₂ he₂ heq => ?_, fun e' he' hnot => ?_, fun e' he' hlive => ?_,
      fun e' he' hrunning => ?_, fun s hs hcancelled => ?_, fun s process hs => ?_, hfinals'.1,
      hfinals'.2⟩
    · obtain ⟨hid, hs'⟩ := hget id s hs
      refine (h.covered id s hs').imp_right ?_
      rintro ⟨e', he', htask, hnot⟩
      have hne : e' ≠ e := by
        rintro rfl
        exact hid ((h.entry id s hs').2.symm.trans (htask ▸ (h.execution e' he').2.1))
      refine ⟨e', he', (hsame e').1.trans htask, ?_⟩
      dsimp only
      rw [hother e' hne]
      exact hnot
    · dsimp only
      rw [(hsame e').1, (hsame e').2.1]
      exact h.execution e' he'
    · exact h.unique e₁ he₁ e₂ he₂ ((hsame e₁).1.symm.trans (heq.trans (hsame e₂).1))
    · obtain ⟨hne, hnot⟩ := hlate e' hnot
      have hkept' := h.kept e' he' hnot
      dsimp only
      rw [(hsame e').1, (hsame e').2.1]
      refine (get?_delete_of_ne fun hid => hne ?_).trans hkept'
      rw [hid, hkept] at hkept'
      exact h.unique e' he' e he (Option.some.inj hkept').symm
    · have hne : e' ≠ e := by
        rintro rfl
        exact Bool.noConfusion (hdead.symm.trans ((hsame e').2.2.symm.trans hlive))
      exact (congrArg Execution.stage (hother e' hne)).trans
        (h.alive e' he' ((hsame e').2.2.symm.trans hlive))
    · have hnot : (executions e').stage ≠ .finished := by
        rintro hfinished
        obtain hr | hr := hrunning
        · exact Stage.noConfusion (hfinished.symm.trans hr)
        · exact Stage.noConfusion (hfinished.symm.trans hr)
      obtain ⟨hne, -⟩ := hlate e' hnot
      dsimp only at hrunning ⊢
      rw [hother e' hne] at hrunning ⊢
      exact h.process e' he' hrunning
    · obtain ⟨hstatus, hstages⟩ := h.cancelled s hs hcancelled
      refine ⟨hstatus, fun e' he' htask => ?_⟩
      have hold := hstages e' he' ((hsame e').1.symm.trans htask)
      by_cases heq : e' = e
      · dsimp only
        rw [heq, hself]
        exact ⟨Stage.noConfusion, Stage.noConfusion, hdead⟩
      · dsimp only
        rw [hother e' heq]
        exact hold
    · obtain ⟨hlt, hstatus, hstages⟩ := h.stopping s process hs
      refine ⟨hlt, hstatus, fun e' he' htask => ?_⟩
      have hold := hstages e' he' ((hsame e').1.symm.trans htask)
      by_cases heq : e' = e
      · dsimp only
        rw [heq, hself]
        exact ⟨Stage.noConfusion, fun hrunning =>
          hrunning.elim Stage.noConfusion Stage.noConfusion⟩
      · dsimp only
        rw [hother e' heq]
        exact hold
  subst hexecutions
  exact hsound

theorem Sound.begins {created : Bool} (hs : t.begins e created = some u) :
    u.Sound maxConcurrency := by
  unfold TaskRunner.begins at hs
  split at hs
  case isFalse => cases hs
  next hguard =>
  obtain ⟨he, hscheduled⟩ := hguard
  cases hs
  have hkept := h.kept e he (hscheduled ▸ Stage.noConfusion)
  have hdead : (t.executions e).alive = false := by
    refine Bool.eq_false_iff.mpr fun hlive => ?_
    exact Stage.noConfusion (hscheduled.symm.trans (h.alive e he hlive))
  have hfail : (t.advance e .failing).Sound maxConcurrency :=
    h.advance he rfl (hscheduled ▸ Stage.noConfusion) Stage.noConfusion Stage.noConfusion
      Stage.noConfusion Stage.noConfusion fun hlive => Bool.noConfusion (hdead.symm.trans hlive)
  rw [hkept]
  dsimp only
  split_ifs
  · exact h.create he hscheduled rfl rfl
  · exact hfail

/-- The process of an execution goes from one stage to a later one, or the thread that waits for it
returns. -/
theorem Sound.proceed {stage : Stage} (he : e < t.executionCount)
    (hbefore : (t.executions e).stage ≠ .finished) (hafter : stage ≠ .finished)
    (hscheduled : stage ≠ .scheduled) (hstarting : stage ≠ .starting) (hrunning : stage ≠ .running)
    (hdead : (t.executions e).alive = false) : (t.advance e stage).Sound maxConcurrency :=
  h.advance he rfl hbefore hafter hscheduled (absurd · hstarting) (absurd · hrunning)
    fun hlive => nomatch hdead.symm.trans hlive

theorem Sound.dead (he : e < t.executionCount) (hstage : (t.executions e).stage ≠ .running) :
    (t.executions e).alive = false :=
  Bool.eq_false_iff.mpr fun hlive => hstage (h.alive e he hlive)

theorem Sound.returns {prints : Option ℕ} (hs : t.returns e prints = some u) :
    u.Sound maxConcurrency := by
  unfold TaskRunner.returns at hs
  split at hs
  case isFalse => cases hs
  next hguard =>
  obtain ⟨he, hrunning, hdead⟩ := hguard
  have hbefore : (t.executions e).stage ≠ .finished := hrunning ▸ Stage.noConfusion
  cases prints with
  | some calls =>
    cases hs
    exact h.proceed he hbefore Stage.noConfusion Stage.noConfusion Stage.noConfusion
      Stage.noConfusion hdead
  | none =>
    dsimp only at hs
    split_ifs at hs
    cases hs
    exact h.proceed he hbefore Stage.noConfusion Stage.noConfusion Stage.noConfusion
      Stage.noConfusion hdead

/-- No task waits for its settings when the runner connects again. -/
theorem Sound.connect (hslip : ¬ t.Slip .connect) :
    Sound maxConcurrency { t with connected := true, connections := t.connections + 1 } := by
  refine ⟨h.capacity, h.entry, fun id s hs => ?_, h.execution, h.unique, h.kept, h.alive, h.process,
    h.cancelled, h.stopping, h.finals, h.finished⟩
  obtain ⟨hwaiting, -⟩ | hexecution := h.covered id s hs
  · exact absurd ⟨id, s, hs, hwaiting⟩ hslip
  · exact .inr hexecution

theorem Sound.next {event : Event} (hs : t.next maxConcurrency event = some u)
    (hslip : ¬ t.Slip event) : u.Sound maxConcurrency := by
  cases event with
  | wait duration =>
    rw [TaskRunner.next] at hs
    split_ifs at hs
    cases hs
    exact h.same ⟨rfl, rfl, rfl, rfl, rfl, rfl, rfl, fun _ _ => id⟩
  | connect =>
    rw [TaskRunner.next] at hs
    split_ifs at hs
    cases hs
    exact h.connect hslip
  | disconnect =>
    rw [TaskRunner.next] at hs
    split_ifs at hs
    cases hs
    exact h.same ⟨rfl, rfl, rfl, rfl, rfl, rfl, rfl, fun _ _ => id⟩
  | runnerRegistered =>
    rw [TaskRunner.next] at hs
    split_ifs at hs
    cases hs
    exact h.same ⟨rfl, rfl, rfl, rfl, rfl, rfl, rfl, fun _ _ => id⟩
  | taskOfferAccept offerId id =>
    rw [TaskRunner.next] at hs
    split_ifs at hs
    cases hs
    exact h.taskOfferAccept hslip
  | taskSettings id continueOnFail =>
    rw [TaskRunner.next] at hs
    split_ifs at hs
    cases hs
    exact h.taskSettings
  | taskCancel id =>
    rw [TaskRunner.next] at hs
    split_ifs at hs
    cases hs
    exact h.taskCancel hslip
  | drain =>
    rw [TaskRunner.next] at hs
    split_ifs at hs
    cases hs
    exact h.same ⟨rfl, rfl, rfl, rfl, rfl, rfl, rfl, fun _ _ => id⟩
  | sendOffers sender => exact h.same (same_loopOffers hs)
  | taskOffer sender offerId jitter sent =>
    rw [TaskRunner.next] at hs
    split_ifs at hs
    exact h.same (same_taskOffer hs)
  | stopped => exact h.stopped hs hslip
  | begins e created => exact h.begins hs
  | starts e started =>
    rw [TaskRunner.next] at hs
    split_ifs at hs with hguard
    obtain ⟨he, hstarting⟩ := hguard
    cases hs
    exact h.advance he rfl (hstarting ▸ Stage.noConfusion) Stage.noConfusion Stage.noConfusion
      Stage.noConfusion (fun _ => .inl hstarting) fun _ => ⟨rfl, .inl hstarting⟩
  | exits e =>
    rw [TaskRunner.next] at hs
    split_ifs at hs with hguard
    obtain ⟨he, hlive⟩ := hguard
    cases hs
    have hrunning := h.alive e he hlive
    refine h.advance he rfl (hrunning ▸ Stage.noConfusion) ?_ ?_ id .inr Bool.noConfusion
    · exact hrunning ▸ Stage.noConfusion
    · exact hrunning ▸ Stage.noConfusion
  | returns e prints => exact h.returns hs
  | rpcCall e sent =>
    rw [TaskRunner.next] at hs
    split at hs
    · next calls hprinting =>
      split at hs
      case isFalse => cases hs
      next hguard =>
      cases hs
      have hdead := h.dead hguard.1 (hprinting ▸ Stage.noConfusion)
      have hbefore : (t.executions e).stage ≠ .finished := hprinting ▸ Stage.noConfusion
      cases sent with
      | true =>
        exact h.proceed hguard.1 hbefore Stage.noConfusion Stage.noConfusion Stage.noConfusion
          Stage.noConfusion hdead
      | false =>
        exact h.proceed hguard.1 hbefore Stage.noConfusion Stage.noConfusion Stage.noConfusion
          Stage.noConfusion hdead
    · cases hs
  | taskDone e sent =>
    rw [TaskRunner.next] at hs
    split_ifs at hs with hguard hsent
    · cases hs
      exact h.finish hguard.1 (hguard.2.1 ▸ Stage.noConfusion)
        (h.dead hguard.1 (hguard.2.1 ▸ Stage.noConfusion)) (.inr rfl)
    · cases hs
      exact h.proceed hguard.1 (hguard.2.1 ▸ Stage.noConfusion) Stage.noConfusion Stage.noConfusion
        Stage.noConfusion Stage.noConfusion (h.dead hguard.1 (hguard.2.1 ▸ Stage.noConfusion))
  | taskError e sent =>
    rw [TaskRunner.next] at hs
    split_ifs at hs with hguard hsent
    · cases hs
      exact h.finish hguard.1 (hguard.2.1 ▸ Stage.noConfusion)
        (h.dead hguard.1 (hguard.2.1 ▸ Stage.noConfusion)) (.inr rfl)
    · cases hs
      exact h.finish hguard.1 (hguard.2.1 ▸ Stage.noConfusion)
        (h.dead hguard.1 (hguard.2.1 ▸ Stage.noConfusion)) (.inl rfl)

end Sound

/-! ## Runs -/

section Runs

variable {es : List Event}

/-- Runs without a slip. -/
abbrev Steady (maxConcurrency : ℕ) : Transition.System TaskRunner Event :=
  (taskRunner maxConcurrency).restrict fun t e _ => ¬ t.Slip e

theorem sound_run (h : (Steady maxConcurrency).Run initial es t) : t.Sound maxConcurrency := by
  refine h.history_invariant (I := fun _ u => u.Sound maxConcurrency) .initial ?_
  rintro es t e u hsound ⟨hs, hslip⟩
  exact hsound.next hs hslip

/-- **Bookkeeping along a run without a slip**: the capacity is kept, every task sends one last
message at most, a cancelled task has no process, and every entry is for a task that is executed or
was accepted on this connection. -/
theorem bookkeeping_run (h : (Steady maxConcurrency).Run initial es t) :
    t.IsSound maxConcurrency :=
  (sound_run h).isSound

/-- A task is cancelled while its process runs. -/
theorem bookkeeping_run_cancel : ∃ t : TaskRunner,
    t.finals = [0] ∧ (t.tasks 0).cancelled = true ∧ t.IsSound 1 := by
  obtain ⟨t, hrun, hfinals, hcancelled⟩ : ∃ t, (Steady 1).Run initial
      [.connect, .runnerRegistered, .sendOffers .coroutine, .taskOffer .coroutine 5 0 true,
        .taskOfferAccept 5 7, .taskSettings 7 false, .begins 0 true, .starts 0 true, .taskCancel 7,
        .stopped, .returns 0 none, .taskError 0 true] t ∧
      t.finals = [0] ∧ (t.tasks 0).cancelled = true := by
    -- the times of offers are compared on the way
    with_unfolding_all refine ⟨_, .restrict_cons rfl ?_ <| .restrict_cons rfl id <|
      .restrict_cons rfl id <| .restrict_cons rfl id <| .restrict_cons rfl Bool.noConfusion <|
      .restrict_cons rfl id <|
      .restrict_cons rfl id <| .restrict_cons rfl id <| .restrict_cons rfl ?_ <|
      .restrict_cons rfl ?_ <| .restrict_cons rfl id <| .restrict_cons rfl id .nil, rfl, rfl⟩
    · rintro ⟨id, s, hs, -⟩
      cases hs
    · rintro ⟨s, -, e, he, -, hscheduled⟩
      have heq : e = 0 := by with_unfolding_all exact Nat.lt_one_iff.mp he
      subst heq
      with_unfolding_all cases hscheduled
    · rintro ⟨s, e, hhandler, hstarting⟩
      have heq : e = 0 := by
        with_unfolding_all
          exact (Option.some.inj (Handler.stopping.inj (Option.some.inj hhandler)).2).symm
      subst heq
      with_unfolding_all cases hstarting
  exact ⟨t, hfinals, hcancelled, bookkeeping_run hrun⟩

/-- **A process after a cancel, and an entry of a lost connection**: the settings of a task have
just been handled when it is cancelled, and its process is started none the less. A task that waits
for its settings when the connection is lost is still counted after the next one. -/
theorem not_isSound :
    (∃ t : TaskRunner, (taskRunner 1).Run initial
        [.connect, .runnerRegistered, .sendOffers .coroutine, .taskOffer .coroutine 5 0 true,
          .taskOfferAccept 5 7, .taskSettings 7 false, .taskCancel 7, .stopped, .begins 0 true,
          .starts 0 true] t ∧
      (t.tasks 0).cancelled = true ∧ (t.executions 0).alive = true ∧ ¬ t.IsSound 1) ∧
    ∃ t : TaskRunner, (taskRunner 1).Run initial
        [.connect, .runnerRegistered, .sendOffers .coroutine, .taskOffer .coroutine 5 0 true,
          .taskOfferAccept 5 7, .disconnect, .connect, .runnerRegistered] t ∧
      t.runningTasks.get? 7 = some 0 ∧ ¬ t.IsSound 1 := by
  with_unfolding_all refine ⟨⟨_, Transition.System.run_of_follow id rfl, rfl, rfl, fun h => ?_⟩,
    ⟨_, Transition.System.run_of_follow id rfl, rfl, fun h => ?_⟩⟩
  · with_unfolding_all cases h.cancelled 0 Nat.zero_lt_one rfl 0 Nat.zero_lt_one rfl
  · have hentry := h.entries 7 0 (by with_unfolding_all exact rfl)
    obtain ⟨e, he, -⟩ | hconnection := hentry
    · with_unfolding_all exact Nat.not_lt_zero e he
    · with_unfolding_all cases hconnection

end Runs

end TaskRunner

end N8n.PythonTaskRunner
