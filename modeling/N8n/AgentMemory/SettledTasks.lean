import N8n.AgentMemory.Serialization
import N8n.Foundations.Execution

/-!
# What becomes of the tasks of a runner

Every task ends and gets out of the queue, provided that tasks settle and that the lock store
answers. A runner whose tasks have all ended is left with an empty queue and without a lock.

## Main definitions

* `Fair`: no step that is due is put off for ever
* `Idle`: no task is in flight, and no call of the lock store is on its way

## Main results

* `eventually_unlinked`: every task gets out of the queue
* `runner_execution`: tasks do not overlap, end, and leave no lock behind
-/

namespace N8n.AgentMemory

variable {V E : Type} {lockStore : Bool} {maxCapturedErrors : ℕ}

open Transition.System

variable {r s : Runner V E} {id : ℕ} {run : ℕ → Runner V E}

/-- What is kept of a task by every step, and what its own steps do. -/
theorem Runner.Stepped.reaches {task : Task V E} {e : Event V E}
    (h : r.Stepped lockStore maxCapturedErrors e s) (htask : r.tasks[id]? = some task) :
    ∃ after, s.tasks[id]? = some after ∧ after.previous = task.previous ∧
      after.stage.weight ≤ task.stage.weight ∧
      ∀ action, e = .act id action → action.isOwn = true →
        after.stage.weight < task.stage.weight := by
  have hact : ∀ {i : ℕ} {t done : Task V E} {action : Action V E} {output : Output V E},
      r.tasks[i]? = some t → t.Stepped lockStore action done output →
      ∃ after, (r.commit maxCapturedErrors i done output).tasks[id]? = some after ∧
        after.previous = task.previous ∧ after.stage.weight ≤ task.stage.weight ∧
        ∀ action', Event.act i action = .act id action' → action'.isOwn = true →
          after.stage.weight < task.stage.weight := by
    intro i t done action output ht hact
    rw [getElem?_commit ht]
    split_ifs with hi
    · rw [← hi, htask] at ht
      cases ht
      refine ⟨done, rfl, hact.frame.2, hact.weight_le, ?_⟩
      rintro _ ⟨⟩ hown
      exact hact.weight_lt hown
    · refine ⟨task, htask, rfl, le_refl _, ?_⟩
      rintro _ ⟨⟩
      exact absurd rfl hi
  cases h with
  | schedule observationScopeId taskKind =>
    exact ⟨task, getElem?_schedule.mpr (.inl htask), rfl, le_refl _, nofun⟩
  | act ht hstep => exact hact ht hstep
  | unlinks ht hstep =>
    rw [tasks_unlink]
    exact hact ht hstep

/-- A step of the task is due: its turn has come, it settles, or an answer of the lock store or a
continuation is to come. -/
def Runner.IsDue (r : Runner V E) (task : Task V E) : Prop :=
  (task.stage = .queued → r.isNext task = true) ∧ task.stage.isUnlinked = false

/-- Tasks settle, the lock store answers, and continuations run: no step that is due is put off for
ever. -/
def Fair (lockStore : Bool) (maxCapturedErrors : ℕ) (run : ℕ → Runner V E) : Prop :=
  ∀ (n id : ℕ) (task : Task V E), (run n).tasks[id]? = some task → (run n).IsDue task →
    ∃ m, n ≤ m ∧ ∃ action : Action V E, action.isOwn = true ∧
      (runner V E lockStore maxCapturedErrors).step (run m) (.act id action) (run (m + 1))

/-- How far a task is, at least. -/
def Runner.Reaches (id : ℕ) (previous : Option ℕ) (weight : ℕ) (r : Runner V E) : Prop :=
  ∃ task, r.tasks[id]? = some task ∧ task.previous = previous ∧ task.stage.weight ≤ weight

theorem Runner.Reaches.next {previous : Option ℕ} {weight : ℕ} {e : Event V E}
    (h : r.Reaches id previous weight)
    (hs : (runner V E lockStore maxCapturedErrors).step r e s) : s.Reaches id previous weight := by
  obtain ⟨task, htask, hprevious, hweight⟩ := h
  obtain ⟨after, hafter, hkept, hle, -⟩ := (stepped_of_next hs).reaches htask
  exact ⟨after, hafter, hkept.trans hprevious, hle.trans hweight⟩

section Store

variable (h : (runner V E lockStore maxCapturedErrors).Execution run)
include h

theorem serial_of_execution (n : ℕ) : Serial (run n) := by
  refine h.invariant (I := Serial) ?_ ?_ n
  · rintro _ rfl
    exact .initial
  · intro s e t hs hstep
    exact hs.next (Runner.stepped_of_next hstep)

/-- A task whose turn has come gets out of the queue. -/
theorem unlinked_of_due (hfair : Fair lockStore maxCapturedErrors run) {n : ℕ} {task : Task V E}
    (htask : (run n).tasks[id]? = some task) (hnext : ∀ m, n ≤ m → (run m).isNext task = true) :
    Eventually run n (Runner.Reaches id task.previous 0) := by
  let rank (r : Runner V E) : ℕ := (r.tasks[id]?.map fun task => task.stage.weight).getD 0
  refine .of_rank (I := fun r => ∃ w, r.Reaches id task.previous w) rank
    ⟨_, task, htask, rfl, le_refl _⟩ ?_
  rintro m hnm ⟨-, now, hnow, hprevious, -⟩
  cases hout : now.stage.isUnlinked with
  | true =>
    refine .inl ⟨now, hnow, hprevious, ?_⟩
    cases hstage : now.stage with
    | unlinked result => exact le_refl _
    | _ =>
      rw [hstage] at hout
      cases hout
  | false =>
    have hdue : (run m).IsDue now := by
      refine ⟨fun _ => ?_, hout⟩
      have hthen := hnext m hnm
      unfold Runner.isNext at hthen ⊢
      rw [hprevious]
      exact hthen
    obtain ⟨k, hmk, action, hown, hstep⟩ := hfair m id now hnow hdue
    -- nothing else takes the task back until then
    obtain ⟨later, hthen, hkept, hle⟩ :=
      h.stays (I := Runner.Reaches id task.previous now.stage.weight)
        (fun hI hs => hI.next hs) hmk ⟨now, hnow, hprevious, le_refl _⟩
    obtain ⟨after, hafter, hafter_previous, -, hlt⟩ :=
      (Runner.stepped_of_next hstep).reaches hthen
    refine .inr ⟨k + 1, le_trans hmk (Nat.le_succ k),
      ⟨_, after, hafter, hafter_previous.trans hkept, le_refl _⟩, ?_⟩
    simp only [rank, hafter, hnow, Option.map_some, Option.getD_some]
    exact (hlt action rfl hown).trans_le hle

/-- Every task gets out of the queue, after those before it. -/
theorem eventually_unlinked (hfair : Fair lockStore maxCapturedErrors run) {n : ℕ} {task : Task V E}
    (htask : (run n).tasks[id]? = some task) :
    Eventually run n (Runner.Reaches id task.previous 0) := by
  induction id using Nat.strong_induction_on generalizing n task with
  | _ id ih =>
    cases hp : task.previous with
    | none =>
      rw [← hp]
      refine unlinked_of_due h hfair htask fun m _ => ?_
      rw [Runner.isNext, hp]
      rfl
    | some p =>
      obtain ⟨hlt, before, hbefore, -⟩ := (serial_of_execution h n).chained.previous htask hp
      refine (ih p hlt hbefore).trans fun m hnm hm => ?_
      obtain ⟨now, hnow, hprevious, -⟩ :=
        h.stays (I := Runner.Reaches id task.previous task.stage.weight)
          (fun hI hs => hI.next hs) hnm ⟨task, htask, rfl, le_refl _⟩
      rw [← hp, ← hprevious]
      refine unlinked_of_due h hfair hnow fun k hmk => ?_
      obtain ⟨last, hlast, -, hweight⟩ :=
        h.stays (I := Runner.Reaches p before.previous 0) (fun hI hs => hI.next hs) hmk hm
      rw [Runner.isNext, hprevious, hp, Option.all_some, hlast, Option.any_some]
      exact Stage.isUnlinked_of_weight (Nat.le_zero.mp hweight)

end Store

/-! ## What is left behind -/

/-- What the runner has called for: an answer of the lock store, or a continuation. -/
def Action.isAwaited : Action V E → Bool
  | .settles _ | .timerFires => false
  | .start | .storeAcquires _ | .acquired | .storeRenews _ | .renewed | .storeReleases _ | .released
  | .storeReleasesLate _ | .resolves | .unlinks => true

/-- No task is in flight. No call of the lock store is on its way, and the answers have been dealt
with. -/
structure Idle (lockStore : Bool) (maxCapturedErrors : ℕ) (r : Runner V E) : Prop where
  inFlight : r.inFlightTasks = []
  awaited : ∀ (id : ℕ) (action : Action V E), action.isAwaited = true →
    r.next lockStore maxCapturedErrors (.act id action) = none

/-- A task for which nothing is to come has ended, and owes no lock. -/
theorem Idle.task {task : Task V E} (h : Idle lockStore maxCapturedErrors r) (hs : Serial r)
    (htask : r.tasks[id]? = some task) : task.stage.isUnlinked = true ∧ task.owed = false := by
  have hnone : ∀ action : Action V E, action.isAwaited = true → action ≠ .start →
      task.act lockStore action = none := by
    intro action haction hstart
    have hnext := h.awaited id action haction
    rw [Runner.next, htask, Option.bind_some] at hnext
    cases action with
    | start => exact absurd rfl hstart
    | _ => exact Option.map_eq_none_iff.mp hnext
  have hended : task.stage.isInFlight = false := by
    refine Bool.eq_false_iff.mpr fun hflying => ?_
    have hin := hs.flying.mem.mpr ⟨task, htask, hflying⟩
    rw [h.inFlight] at hin
    cases hin
  have hunlinked : ∃ result, task.stage = .unlinked result := by
    cases hstage : task.stage with
    | unlinked result => exact ⟨result, rfl⟩
    | finished result =>
      have hresolves := hnone .resolves rfl (by simp)
      simp [Task.act, hstage] at hresolves
    | resolved result =>
      have hunlinks := hnone .unlinks rfl (by simp)
      simp [Task.act, hstage] at hunlinks
    | _ =>
      rw [hstage] at hended
      cases hended
  obtain ⟨result, hstage⟩ := hunlinked
  refine ⟨by rw [hstage]; rfl, Bool.eq_false_iff.mpr fun howed => ?_⟩
  rcases (hs.sound htask).owed howed with ho | ho | ⟨_, ho⟩ | ⟨renewal, hrenewal, hcall⟩ | hlate
  · cases hstage.symm.trans ho
  · cases hstage.symm.trans ho
  · cases hstage.symm.trans ho
  · -- a renewal that is answered is dealt with
    have hrenewed := hnone .renewed rfl (by simp)
    obtain ⟨stopped, timer, call⟩ := renewal
    obtain rfl : call = some (some .granted) := hcall
    simp [Task.act, hrenewal] at hrenewed
  · have hreleases := hnone (.storeReleasesLate none) rfl (by simp)
    obtain ⟨releases, hreleases'⟩ := Nat.exists_eq_add_of_lt hlate
    rw [Nat.zero_add] at hreleases'
    simp [Task.act, hreleases'] at hreleases

theorem Idle.queue (h : Idle lockStore maxCapturedErrors r) (hs : Serial r) :
    r.queuesByScope = .empty := by
  apply OrderedMap.eq_of_entries
  refine List.eq_nil_iff_forall_not_mem.mpr fun entry hentry => ?_
  obtain ⟨task, htask, -, hout⟩ := hs.queued.entry (OrderedMap.get?_eq_some.mpr hentry)
  rw [(h.task hs htask).1] at hout
  cases hout

/-! ## The tasks of a runner -/

/-- No two tasks of a scope are in progress. -/
def Runner.Exclusive (r : Runner V E) : Prop :=
  ∀ (i j : ℕ) (task other : Task V E), r.tasks[i]? = some task → r.tasks[j]? = some other →
    task.observationScopeId = other.observationScopeId →
    task.stage.isInProgress = true → other.stage.isInProgress = true → i = j

/-- The tasks that have begun are those that were started, and those of a scope were started in the
order of their calls. -/
def Runner.InOrder (r : Runner V E) : Prop :=
  (∀ i, i ∈ r.started ↔ ∃ task, r.tasks[i]? = some task ∧ task.stage ≠ .queued) ∧
    r.started.Pairwise fun i j => r.scope? i = r.scope? j → i < j

theorem Serial.exclusive (h : Serial r) : r.Exclusive := by
  have hprogress : ∀ {stage : Stage V E}, stage.isInProgress = true →
      stage ≠ .queued ∧ stage.isUnlinked = false := by
    intro stage hstage
    cases stage with
    | acquiring _ | running _ | releasing _ _ => exact ⟨nofun, rfl⟩
    | queued | finished _ | resolved _ | unlinked _ => cases hstage
  intro i j task other htask hother hscope hi hj
  rcases Nat.lt_trichotomy i j with hlt | rfl | hgt
  · have hout := h.chained.begun hother htask hlt hscope (hprogress hj).1
    rw [(hprogress hi).2] at hout
    cases hout
  · rfl
  · have hout := h.chained.begun htask hother hgt hscope.symm (hprogress hi).1
    rw [(hprogress hj).2] at hout
    cases hout

/-- **The tasks of a scope run one at a time and in order**, whatever becomes of the tasks, the lock
store and the renewals. Every `done` is resolved if nothing is put off for ever, and a runner that
is idle has an empty queue and owes no lock. -/
theorem runner_execution (h : (runner V E lockStore maxCapturedErrors).Execution run) :
    (∀ n, (run n).Exclusive ∧ (run n).InOrder) ∧
      (Fair lockStore maxCapturedErrors run → ∀ n id, id < (run n).tasks.length →
        Eventually run n fun r => ∃ task result, r.tasks[id]? = some task ∧
          (task.stage = .resolved result ∨ task.stage = .unlinked result)) ∧
      ∀ n, Idle lockStore maxCapturedErrors (run n) →
        (∀ task ∈ (run n).tasks, task.owed = false) ∧ (run n).queuesByScope = .empty := by
  refine ⟨fun n => ?_, fun hfair n id hid => ?_, fun n hidle => ?_⟩
  · have hserial := serial_of_execution h n
    exact ⟨hserial.exclusive, fun _ => hserial.ordered.begun, hserial.ordered.sorted⟩
  · refine (eventually_unlinked h hfair (List.getElem?_eq_getElem hid)).trans fun m _ hm => ?_
    obtain ⟨task, htask, -, hweight⟩ := hm
    have hout := Stage.isUnlinked_of_weight (Nat.le_zero.mp hweight)
    cases hstage : task.stage with
    | unlinked result => exact .now ⟨task, result, htask, .inr hstage⟩
    | _ =>
      rw [hstage] at hout
      cases hout
  · have hserial := serial_of_execution h n
    refine ⟨fun task hin => ?_, hidle.queue hserial⟩
    obtain ⟨id, htask⟩ := List.mem_iff_getElem?.mp hin
    exact (hidle.task hserial htask).2

/-- A task whose lock is renewed when it has ended already. -/
def lateRenewal : List (Event ℕ ℕ) :=
  [.schedule "thread" .observer, .act 0 .start, .act 0 (.storeAcquires .granted), .act 0 .acquired,
    .act 0 .timerFires, .act 0 (.settles (.ok 1)), .act 0 (.storeReleases none),
    .act 0 (.storeRenews .granted), .act 0 .renewed, .act 0 .released,
    .act 0 (.storeReleasesLate none), .act 0 .resolves, .act 0 .unlinks]

/-- The runner with the task of `lateRenewal`, step by step. -/
def lateRenewalRun : ℕ → Runner ℕ ℕ :=
  settling (Runner.next true 10) lateRenewal .initial

theorem lateRenewal_execution : (runner ℕ ℕ true 10).Execution lateRenewalRun :=
  execution_of_follow id rfl rfl

theorem lateRenewal_fair : Fair true 10 lateRenewalRun := by
  have htasks : ∀ n ≤ lateRenewal.length, (lateRenewalRun n).tasks.length ≤ 1 := by decide
  intro n id task htask hdue
  have hrun : lateRenewalRun n = lateRenewalRun (min n lateRenewal.length) := settling_min n
  obtain rfl : id = 0 := by
    have hlt := (List.getElem?_eq_some_iff.mp htask).1
    rw [hrun] at hlt
    exact Nat.lt_one_iff.mp (hlt.trans_le (htasks _ (Nat.min_le_right _ _)))
  rcases Nat.lt_or_ge n 13 with hn | hn
  · exact ⟨12, Nat.le_of_lt_succ hn, .unlinks, rfl, rfl⟩
  · -- the task is out of the queue
    have hend : min n lateRenewal.length = 13 := Nat.min_eq_right hn
    rw [hrun, hend] at htask
    cases htask
    cases hdue.2

theorem runner_execution_late :
    (∀ n, (lateRenewalRun n).Exclusive ∧ (lateRenewalRun n).InOrder) ∧
      (∀ n id, id < (lateRenewalRun n).tasks.length →
        Eventually lateRenewalRun n fun r => ∃ task result, r.tasks[id]? = some task ∧
          (task.stage = .resolved result ∨ task.stage = .unlinked result)) ∧
      ∀ n, Idle true 10 (lateRenewalRun n) →
        (∀ task ∈ (lateRenewalRun n).tasks, task.owed = false) ∧
          (lateRenewalRun n).queuesByScope = .empty :=
  have h := runner_execution lateRenewal_execution
  ⟨h.1, h.2.1 lateRenewal_fair, h.2.2⟩

end N8n.AgentMemory
