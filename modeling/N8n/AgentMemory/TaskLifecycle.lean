import N8n.AgentMemory.ScopedMemoryTaskRunner

/-!
# The steps of a memory task

A task goes from one stage to the next, and its renewals go on beside it. When the store has granted
it a lock, a release is always still to come until one was attempted.

## Main definitions

* `Task.Stepped`: the steps of a task, one by one
* `Task.Sound`: a lock that is owed is going to be released
* `Stage.weight`: how many steps are left to a task

## Main results

* `Task.stepped_of_act`: a step is one of these
* `Task.Sound.act`: the step lemma
* `Task.Stepped.weight_lt`: the steps of the task itself take it further
-/

namespace N8n.AgentMemory

variable {V E : Type} {lockStore : Bool}

variable {task done : Task V E} {output : Output V E} {action : Action V E}

/-- The release of a lock is still to come: with the end of the task, or with the answer of a
renewal that has arrived late. -/
def Task.Releases (task : Task V E) : Prop :=
  task.stage = .acquiring (some .granted) ∨ task.stage = .running true ∨
    (∃ result, task.stage = .releasing result none) ∨
    (∃ renewal, task.renewal = some renewal ∧ renewal.call = some (some .granted)) ∨
    0 < task.lateReleases

/-- A lock that is owed is going to be released. A renewal goes on only while the task runs with a
lock, and has a timer only while it goes on. -/
structure Task.Sound (task : Task V E) : Prop where
  owed : task.owed = true → task.Releases
  unrenewed : (task.stage = .queued ∨ ∃ answer, task.stage = .acquiring answer) →
    task.renewal = none
  renewing : ∀ renewal, task.renewal = some renewal → renewal.stopped = false →
    task.stage = .running true
  timer : ∀ renewal, task.renewal = some renewal → renewal.timer = true →
    renewal.stopped = false ∧ renewal.call = none

inductive Task.Stepped (lockStore : Bool) (task : Task V E) :
    Action V E → Task V E → Output V E → Prop
  | start (hstage : task.stage = .queued) : Stepped lockStore task .start
      { task with stage := if lockStore then .acquiring none else .running false }
      ⟨[], [.started], false⟩
  | storeAcquires {answer : Acquired E} {owed : Bool} (hstage : task.stage = .acquiring none)
      (howed : owed = true → task.owed = true ∨ answer = .granted) :
      Stepped lockStore task (.storeAcquires answer)
        { task with stage := .acquiring (some answer), owed } ⟨[], [], false⟩
  | acquired (hstage : task.stage = .acquiring (some .granted)) : Stepped lockStore task .acquired
      { task with stage := .running true, renewal := some ⟨false, true, none⟩ } ⟨[], [], false⟩
  | notAcquired {answer : Acquired E} {result : ScopedMemoryTaskResult V E} {output : Output V E}
      (hstage : task.stage = .acquiring (some answer)) (hanswer : answer ≠ .granted)
      (hevents : .started ∉ output.events) (hfinished : output.finished = true) :
      Stepped lockStore task .acquired (task.finish false result) output
  | settles {locked : Bool} {outcome : Except E V} {result : ScopedMemoryTaskResult V E}
      {output : Output V E} (hstage : task.stage = .running locked)
      (hevents : .started ∉ output.events) (hfinished : output.finished = !locked) :
      Stepped lockStore task (.settles outcome) (task.finish locked result) output
  | timerFires {stopped : Bool} (hrenewal : task.renewal = some ⟨stopped, true, none⟩) :
      Stepped lockStore task .timerFires { task with renewal := some ⟨stopped, false, some none⟩ }
        ⟨[], [], false⟩
  | storeRenews {answer : Acquired E} {owed stopped timer : Bool}
      (hrenewal : task.renewal = some ⟨stopped, timer, some none⟩)
      (howed : owed = true → task.owed = true ∨ answer = .granted) :
      Stepped lockStore task (.storeRenews answer)
        { task with renewal := some ⟨stopped, timer, some (some answer)⟩, owed }
        ⟨[], [], false⟩
  | renewedLate {timer : Bool}
      (hrenewal : task.renewal = some ⟨true, timer, some (some .granted)⟩) :
      Stepped lockStore task .renewed
        { task with
          renewal := some ⟨true, timer, none⟩
          lateReleases := task.lateReleases + 1 } ⟨[], [], false⟩
  | renewed {answer : Acquired E} {stopped timer stopped' timer' : Bool}
      {errors : List (CapturedError E)}
      (hrenewal : task.renewal = some ⟨stopped, timer, some (some answer)⟩)
      (hlate : answer = .granted → stopped = false) (hstopped : stopped' = false → stopped = false)
      (htimer : timer' = true → timer = true ∨ stopped' = false) :
      Stepped lockStore task .renewed { task with renewal := some ⟨stopped', timer', none⟩ }
        ⟨errors, [], false⟩
  | storeReleases {error : Option E} {result : ScopedMemoryTaskResult V E}
      (hstage : task.stage = .releasing result none) :
      Stepped lockStore task (.storeReleases error)
        { task with stage := .releasing result (some error), owed := false } ⟨[], [], false⟩
  | released {error : Option E} {result : ScopedMemoryTaskResult V E}
      {errors : List (CapturedError E)} (hstage : task.stage = .releasing result (some error)) :
      Stepped lockStore task .released { task with stage := .finished result } ⟨errors, [], true⟩
  | storeReleasesLate {error : Option E} {lateReleases : ℕ} {errors : List (CapturedError E)}
      (hlate : task.lateReleases = lateReleases + 1) :
      Stepped lockStore task (.storeReleasesLate error)
        { task with lateReleases, owed := false } ⟨errors, [], false⟩
  | resolves {result : ScopedMemoryTaskResult V E} (hstage : task.stage = .finished result) :
      Stepped lockStore task .resolves { task with stage := .resolved result } ⟨[], [], false⟩
  | unlinks {result : ScopedMemoryTaskResult V E} (hstage : task.stage = .resolved result) :
      Stepped lockStore task .unlinks { task with stage := .unlinked result } ⟨[], [], false⟩

/-- Not yet taken out of the tasks in flight. -/
def Stage.isInFlight : Stage V E → Bool
  | .queued | .acquiring _ | .running _ | .releasing _ _ => true
  | .finished _ | .resolved _ | .unlinked _ => false

theorem Task.stepped_of_act (h : task.act lockStore action = some (done, output)) :
    task.Stepped lockStore action done output := by
  cases action with
  | start =>
    simp only [Task.act] at h
    split at h
    · rename_i hstage
      cases h
      exact .start hstage
    · cases h
  | storeAcquires answer =>
    simp only [Task.act] at h
    split at h
    · rename_i hstage
      cases h
      refine .storeAcquires hstage fun howed => ?_
      cases answer with
      | granted => exact .inr rfl
      | refused => exact .inl howed
      | failed error => exact .inl howed
    · cases h
  | acquired =>
    simp only [Task.act] at h
    split at h
    · rename_i hstage
      cases h
      exact .acquired hstage
    · rename_i hstage
      cases h
      exact .notAcquired hstage nofun (by simp) rfl
    · rename_i hstage
      cases h
      exact .notAcquired hstage nofun (by simp) rfl
    · cases h
  | settles outcome =>
    simp only [Task.act] at h
    split at h
    · rename_i hstage
      cases outcome <;> cases h <;> exact .settles hstage (by simp) rfl
    · cases h
  | timerFires =>
    simp only [Task.act] at h
    split at h
    · rename_i hrenewal
      split at h
      · cases h
        exact .timerFires hrenewal
      · cases h
    · cases h
  | storeRenews answer =>
    simp only [Task.act] at h
    split at h
    · rename_i hrenewal
      cases h
      refine .storeRenews hrenewal fun howed => ?_
      cases answer with
      | granted => exact .inr rfl
      | refused => exact .inl howed
      | failed error => exact .inl howed
    · cases h
  | renewed =>
    simp only [Task.act] at h
    split at h
    · rename_i stopped timer answer hrenewal
      cases h
      cases answer with
      | granted =>
        cases stopped with
        | true => exact .renewedLate hrenewal
        | false => exact .renewed hrenewal (fun _ => rfl) id fun _ => .inr rfl
      | refused =>
        cases stopped with
        | true => exact .renewed hrenewal nofun id .inl
        | false => exact .renewed hrenewal nofun (fun _ => rfl) .inl
      | failed error =>
        exact .renewed hrenewal nofun id fun htimer => .inr (by simpa using htimer)
    · cases h
  | storeReleases error =>
    simp only [Task.act] at h
    split at h
    · rename_i hstage
      cases h
      exact .storeReleases hstage
    · cases h
  | released =>
    simp only [Task.act] at h
    split at h
    · rename_i hstage
      cases h
      exact .released hstage
    · cases h
  | storeReleasesLate error =>
    simp only [Task.act] at h
    split at h
    · cases h
    · rename_i hlate
      cases h
      exact .storeReleasesLate hlate
  | resolves =>
    simp only [Task.act] at h
    split at h
    · rename_i hstage
      cases h
      exact .resolves hstage
    · cases h
  | unlinks =>
    simp only [Task.act] at h
    split at h
    · rename_i hstage
      cases h
      exact .unlinks hstage
    · cases h

section Stepped

variable (h : task.Stepped lockStore action done output)
include h

theorem Task.Stepped.frame :
    done.observationScopeId = task.observationScopeId ∧ done.previous = task.previous := by
  cases h <;> exact ⟨rfl, rfl⟩

/-- A task waits until it starts, and is out of the queue once and for all. -/
theorem Task.Stepped.stage :
    (task.stage = .queued → action = .start ∧ output.events = [.started] ∨
      done.stage = .queued ∧ .started ∉ output.events) ∧
    (task.stage ≠ .queued → done.stage ≠ .queued ∧ .started ∉ output.events) ∧
    (task.stage.isUnlinked = true → done.stage.isUnlinked = true) := by
  cases h with
  | start hstage => simp [hstage, Stage.isUnlinked]
  | @notAcquired answer result output hstage hanswer hevents =>
    simp [hstage, Stage.isUnlinked, Task.finish, hevents]
  | @settles locked outcome result output hstage hevents =>
    cases locked <;> simp [hstage, Stage.isUnlinked, Task.finish, hevents]
  | storeAcquires hstage | acquired hstage | storeReleases hstage | released hstage
  | resolves hstage | unlinks hstage => simp [hstage, Stage.isUnlinked]
  | timerFires _ | storeRenews _ | renewedLate _ | renewed _ | storeReleasesLate _ => simp

/-- A task goes out of the queue in one step. -/
theorem Task.Stepped.unlinks_of (hbefore : task.stage.isUnlinked = false)
    (hafter : done.stage.isUnlinked = true) : action = .unlinks := by
  cases h with
  | unlinks hstage => rfl
  | start hstage => cases lockStore <;> cases hafter
  | @settles locked outcome result output hstage => cases locked <;> cases hafter
  | storeAcquires hstage | acquired hstage | storeReleases hstage | released hstage
  | resolves hstage | notAcquired hstage => cases hafter
  | timerFires _ | storeRenews _ | renewedLate _ | renewed _ | storeReleasesLate _ =>
    have hafter : task.stage.isUnlinked = true := hafter
    rw [hbefore] at hafter
    cases hafter

/-- A task is in flight until its step says that it has finished. -/
theorem Task.Stepped.finished :
    (output.finished = true ↔ task.stage.isInFlight = true ∧ done.stage.isInFlight = false) ∧
    (task.stage.isInFlight = false → done.stage.isInFlight = false) := by
  cases h with
  | start hstage => cases lockStore <;> simp [hstage, Stage.isInFlight]
  | @notAcquired answer result output hstage hanswer hevents hfinished =>
    simp [hstage, Stage.isInFlight, Task.finish, hfinished]
  | @settles locked outcome result output hstage hevents hfinished =>
    cases locked <;> simp [hstage, Stage.isInFlight, Task.finish, hfinished]
  | storeAcquires hstage | acquired hstage | storeReleases hstage | released hstage
  | resolves hstage | unlinks hstage => simp [hstage, Stage.isInFlight]
  | timerFires _ | storeRenews _ | renewedLate _ | renewed _ | storeReleasesLate _ => simp

end Stepped

/-! ## Its lock -/

/-- **The step lemma** for the lock of a task. -/
theorem Task.Sound.act (h : task.Sound) (hs : task.Stepped lockStore action done output) :
    done.Sound := by
  obtain ⟨howed, hunrenewed, hrenewing, htimer⟩ := h
  unfold Task.Releases at howed
  cases hs with
  | @storeAcquires answer owed hstage hgranted =>
    have hnone := hunrenewed (.inr ⟨none, hstage⟩)
    refine ⟨fun ho => ?_, fun _ => hnone, by simp [hnone], by simp [hnone]⟩
    rcases hgranted ho with hbefore | rfl
    · have hlate : 0 < task.lateReleases := by simpa [hstage, hnone] using howed hbefore
      exact .inr (.inr (.inr (.inr hlate)))
    · exact .inl rfl
  | @settles locked outcome result output hstage =>
    -- a lock is released from now on, and a renewal is stopped
    cases locked <;> constructor <;> simp_all [Task.Releases, Task.finish]
  | @storeRenews answer owed stopped timer hrenewal hgranted =>
    refine ⟨fun ho => ?_, by simp_all, by simp_all, by simp_all⟩
    rcases hgranted ho with hbefore | rfl
    · rcases howed hbefore with hs | hs | hs | ⟨renewal, hs, hcall⟩ | hs
      · exact .inl hs
      · exact .inr (.inl hs)
      · exact .inr (.inr (.inl hs))
      · rw [hrenewal] at hs
        cases hs
        cases hcall
      · exact .inr (.inr (.inr (.inr hs)))
    · exact .inr (.inr (.inr (.inl ⟨_, rfl, rfl⟩)))
  | @renewed answer stopped timer stopped' timer' errors hrenewal hlate hstopped htimer' =>
    refine ⟨fun ho => ?_, by simp_all, by simp_all, by simp_all⟩
    -- a lock that is granted in time is that of the task, which goes on
    by_cases hgranted : answer = .granted
    · exact .inr (.inl (hrenewing _ hrenewal (hlate hgranted)))
    · have hbefore := howed ho
      simp_all [Task.Releases]
  | start hstage | acquired hstage | storeReleases hstage | released hstage | resolves hstage
  | unlinks hstage => constructor <;> simp_all [Task.Releases]
  | notAcquired hstage hanswer => constructor <;> simp_all [Task.Releases, Task.finish]
  | timerFires hrenewal | renewedLate hrenewal => constructor <;> simp_all [Task.Releases]
  | storeReleasesLate hlate => constructor <;> simp_all [Task.Releases]

/-! ## How many steps are left -/

/-- The steps left to a task when it is not held up. -/
def Stage.weight : Stage V E → ℕ
  | .queued => 8
  | .acquiring none => 7
  | .acquiring (some _) => 6
  | .running _ => 5
  | .releasing _ none => 4
  | .releasing _ (some _) => 3
  | .finished _ => 2
  | .resolved _ => 1
  | .unlinked _ => 0

/-- The steps that take a task further. The others are about the renewals of its lock. -/
def Action.isOwn : Action V E → Bool
  | .start | .storeAcquires _ | .acquired | .settles _ | .storeReleases _ | .released | .resolves
  | .unlinks => true
  | .timerFires | .storeRenews _ | .renewed | .storeReleasesLate _ => false

theorem Task.Stepped.weight_lt (h : task.Stepped lockStore action done output)
    (hown : action.isOwn = true) : done.stage.weight < task.stage.weight := by
  cases h with
  | start hstage =>
    rw [hstage]
    cases lockStore <;> simp [Stage.weight]
  | @settles locked outcome result output hstage =>
    rw [hstage]
    cases locked <;> simp [Task.finish, Stage.weight]
  | notAcquired hstage =>
    rw [hstage]
    simp [Task.finish, Stage.weight]
  | storeAcquires hstage | acquired hstage | storeReleases hstage | released hstage
  | resolves hstage | unlinks hstage => simp [hstage, Stage.weight]
  | timerFires _ | storeRenews _ | renewedLate _ | renewed _ | storeReleasesLate _ => cases hown

theorem Task.Stepped.weight_le (h : task.Stepped lockStore action done output) :
    done.stage.weight ≤ task.stage.weight := by
  cases hown : action.isOwn with
  | true => exact (h.weight_lt hown).le
  | false =>
    cases h with
    | timerFires _ | storeRenews _ | renewedLate _ | renewed _ | storeReleasesLate _ =>
      exact le_refl _
    | _ => cases hown

theorem Stage.isUnlinked_of_weight {stage : Stage V E} (h : stage.weight = 0) :
    stage.isUnlinked = true := by
  cases stage with
  | unlinked result => rfl
  | acquiring answer => cases answer <;> cases h
  | releasing result answer => cases answer <;> cases h
  | _ => cases h

end N8n.AgentMemory
