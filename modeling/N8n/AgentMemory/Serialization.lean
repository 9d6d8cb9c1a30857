import Mathlib.Data.List.Pairwise
import N8n.AgentMemory.TaskLifecycle

/-!
# One memory task at a time in each scope

The tasks of a scope start in the order in which they were scheduled, each when the one before it is
out of the queue.

## Main definitions

* `Chained`: the tasks before one that has started are out of the queue
* `Queued`: the entry of a scope is the last of its tasks in the queue
* `Ordered`, `Flying`: the tasks that have started, and those that have not ended
* `Serial`: the invariant

## Main results

* `Runner.stepped_of_next`: the steps of a runner, one by one
* `Serial.next`: the step lemma
-/

namespace N8n.AgentMemory

open Runner

variable {V E : Type} {lockStore : Bool} {maxCapturedErrors : ℕ}

/-! ## The steps of a runner -/

namespace Runner

variable {r s : Runner V E} {id j : ℕ} {task done t : Task V E} {output : Output V E}

inductive Stepped (lockStore : Bool) (maxCapturedErrors : ℕ) (r : Runner V E) :
    Event V E → Runner V E → Prop
  | schedule (observationScopeId : String) (taskKind : ObservationLogTaskKind) :
      Stepped lockStore maxCapturedErrors r (.schedule observationScopeId taskKind)
        (r.schedule observationScopeId taskKind)
  | act {id : ℕ} {task done : Task V E} {action : Action V E} {output : Output V E}
      (htask : r.tasks[id]? = some task) (hact : task.Stepped lockStore action done output)
      (hstart : action = .start → r.isNext task = true) (haction : action ≠ .unlinks) :
      Stepped lockStore maxCapturedErrors r (.act id action)
        (r.commit maxCapturedErrors id done output)
  | unlinks {id : ℕ} {task done : Task V E} {output : Output V E}
      (htask : r.tasks[id]? = some task) (hact : task.Stepped lockStore .unlinks done output) :
      Stepped lockStore maxCapturedErrors r (.act id .unlinks)
        ((r.commit maxCapturedErrors id done output).unlink id task)

theorem stepped_of_next {e : Event V E} (h : r.next lockStore maxCapturedErrors e = some s) :
    r.Stepped lockStore maxCapturedErrors e s := by
  cases e with
  | schedule observationScopeId taskKind =>
    cases h
    exact .schedule observationScopeId taskKind
  | act id action =>
    obtain ⟨task, htask, h⟩ := Option.bind_eq_some_iff.mp h
    cases action with
    | start =>
      simp only [] at h
      split at h
      · rename_i hnext
        obtain ⟨⟨done, output⟩, hact, h⟩ := Option.map_eq_some_iff.mp h
        cases h
        exact .act htask (Task.stepped_of_act hact) (fun _ => hnext) nofun
      · cases h
    | unlinks =>
      obtain ⟨⟨done, output⟩, hact, h⟩ := Option.map_eq_some_iff.mp h
      cases h
      exact .unlinks htask (Task.stepped_of_act hact)
    | _ =>
      obtain ⟨⟨done, output⟩, hact, h⟩ := Option.map_eq_some_iff.mp h
      cases h
      exact .act htask (Task.stepped_of_act hact) nofun nofun

theorem getElem?_commit (htask : r.tasks[id]? = some task) :
    (r.commit maxCapturedErrors id done output).tasks[j]? =
      if j = id then some done else r.tasks[j]? := by
  have hlt : id < r.tasks.length := (List.getElem?_eq_some_iff.mp htask).1
  show (r.tasks.set id done)[j]? = _
  rw [List.getElem?_set]
  by_cases hj : j = id
  · rw [if_pos hj.symm, if_pos hj, if_pos hlt]
  · rw [if_neg (Ne.symm hj), if_neg hj]

@[simp] theorem tasks_unlink : (r.unlink id task).tasks = r.tasks := by
  unfold unlink
  split_ifs <;> rfl

@[simp] theorem inFlightTasks_unlink : (r.unlink id task).inFlightTasks = r.inFlightTasks := by
  unfold unlink
  split_ifs <;> rfl

@[simp] theorem events_unlink : (r.unlink id task).events = r.events := by
  unfold unlink
  split_ifs <;> rfl

theorem getElem?_schedule {observationScopeId : String} {taskKind : ObservationLogTaskKind} :
    (r.schedule observationScopeId taskKind).tasks[j]? = some t ↔
      r.tasks[j]? = some t ∨ j = r.tasks.length ∧ t = ⟨observationScopeId, taskKind,
        r.queuesByScope.get? observationScopeId, .queued, none, 0, false⟩ := by
  show (r.tasks ++ [_])[j]? = some t ↔ _
  rcases Nat.lt_trichotomy j r.tasks.length with hj | rfl | hj
  · rw [List.getElem?_append_left hj]
    exact ⟨.inl, fun h => h.resolve_right fun h => absurd h.1 hj.ne⟩
  · simp [eq_comm]
  · simp only [List.getElem?_eq_none_iff.mpr hj.le, hj.ne', false_and, or_false, reduceCtorEq]
    rw [List.getElem?_eq_none_iff.mpr (by rw [List.length_append]; exact hj)]
    simp

end Runner

/-! ## The queues -/

/-- A task waits for an earlier one of its scope, and with it for all earlier ones. -/
structure Chained (r : Runner V E) : Prop where
  previous : ∀ {i p : ℕ} {task : Task V E}, r.tasks[i]? = some task → task.previous = some p →
    p < i ∧ ∃ before, r.tasks[p]? = some before ∧
      before.observationScopeId = task.observationScopeId
  earlier : ∀ {i j : ℕ} {task before : Task V E}, r.tasks[i]? = some task →
    r.tasks[j]? = some before → j < i → before.observationScopeId = task.observationScopeId →
    before.stage.isUnlinked = true ∨ ∃ p, task.previous = some p ∧ j ≤ p
  begun : ∀ {i j : ℕ} {task before : Task V E}, r.tasks[i]? = some task →
    r.tasks[j]? = some before → j < i → before.observationScopeId = task.observationScopeId →
    task.stage ≠ .queued → before.stage.isUnlinked = true

/-- The entry of a scope is the last of its tasks that are not out of the queue. -/
structure Queued (r : Runner V E) : Prop where
  queue : ∀ {i : ℕ} {task : Task V E}, r.tasks[i]? = some task → task.stage.isUnlinked = false →
    ∃ last, r.queuesByScope.get? task.observationScopeId = some last ∧ i ≤ last
  entry : ∀ {observationScopeId : String} {last : ℕ},
    r.queuesByScope.get? observationScopeId = some last →
    ∃ task, r.tasks[last]? = some task ∧ task.observationScopeId = observationScopeId ∧
      task.stage.isUnlinked = false

section Serial

variable {r s : Runner V E} {id : ℕ} {task done : Task V E} {output : Output V E}
  {action : Action V E}

/-- A task whose turn has come has no task before it in the queue. -/
theorem Chained.unlinked_of_isNext (h : Chained r) {i j : ℕ} {before : Task V E}
    (htask : r.tasks[i]? = some task) (hnext : r.isNext task = true)
    (hbefore : r.tasks[j]? = some before) (hji : j < i)
    (hscope : before.observationScopeId = task.observationScopeId) :
    before.stage.isUnlinked = true := by
  rcases h.earlier htask hbefore hji hscope with hout | ⟨p, hp, hjp⟩
  · exact hout
  · obtain ⟨hpi, last, hlast, hsame⟩ := h.previous htask hp
    have hunlinked : last.stage.isUnlinked = true := by
      simpa [isNext, hp, hlast] using hnext
    rcases hjp.lt_or_eq with hlt | rfl
    · -- the task before is out of the queue, so that it has started
      refine h.begun hlast hbefore hlt (hscope.trans hsame.symm) ?_
      intro hqueued
      rw [hqueued] at hunlinked
      cases hunlinked
    · rw [hlast] at hbefore
      cases hbefore
      exact hunlinked

theorem Chained.schedule (h : Chained r) (hq : Queued r) (observationScopeId : String)
    (taskKind : ObservationLogTaskKind) : Chained (r.schedule observationScopeId taskKind) := by
  constructor
  · intro i p task htask hp
    rcases getElem?_schedule.mp htask with htask | ⟨rfl, rfl⟩
    · obtain ⟨hpi, before, hbefore, hsame⟩ := h.previous htask hp
      exact ⟨hpi, before, getElem?_schedule.mpr (.inl hbefore), hsame⟩
    · obtain ⟨before, hbefore, hsame, -⟩ := hq.entry hp
      exact ⟨(List.getElem?_eq_some_iff.mp hbefore).1, before,
        getElem?_schedule.mpr (.inl hbefore), hsame⟩
  · intro i j task before htask hbefore hji hscope
    rcases getElem?_schedule.mp hbefore with hbefore | ⟨rfl, rfl⟩
    · rcases getElem?_schedule.mp htask with htask | ⟨rfl, rfl⟩
      · exact h.earlier htask hbefore hji hscope
      · -- the new task is behind the last one in the queue
        cases hout : before.stage.isUnlinked with
        | true => exact .inl rfl
        | false =>
          obtain ⟨last, hlast, hle⟩ := hq.queue hbefore hout
          exact .inr ⟨last, (congrArg _ hscope).symm.trans hlast, hle⟩
    · rcases getElem?_schedule.mp htask with htask | ⟨rfl, rfl⟩
      · exact absurd (List.getElem?_eq_some_iff.mp htask).1 hji.not_gt
      · exact absurd hji (lt_irrefl _)
  · intro i j task before htask hbefore hji hscope hbegun
    rcases getElem?_schedule.mp htask with htask | ⟨rfl, rfl⟩
    · rcases getElem?_schedule.mp hbefore with hbefore | ⟨rfl, rfl⟩
      · exact h.begun htask hbefore hji hscope hbegun
      · exact absurd (List.getElem?_eq_some_iff.mp htask).1 hji.not_gt
    · exact absurd rfl hbegun

theorem Queued.schedule (h : Queued r) (observationScopeId : String)
    (taskKind : ObservationLogTaskKind) : Queued (r.schedule observationScopeId taskKind) := by
  constructor
  · intro i task htask hout
    show ∃ last, (r.queuesByScope.set _ _).get? _ = some last ∧ i ≤ last
    rw [OrderedMap.get?_set]
    rcases getElem?_schedule.mp htask with htask | ⟨rfl, rfl⟩
    · split_ifs
      · exact ⟨_, rfl, (List.getElem?_eq_some_iff.mp htask).1.le⟩
      · exact h.queue htask hout
    · exact ⟨_, if_pos rfl, le_refl _⟩
  · intro scope last hlast
    rw [Runner.schedule, OrderedMap.get?_set] at hlast
    split_ifs at hlast with hscope
    · cases hlast
      exact ⟨_, getElem?_schedule.mpr (.inr ⟨rfl, rfl⟩), hscope.symm, rfl⟩
    · obtain ⟨task, htask, hsame, hout⟩ := h.entry hlast
      exact ⟨task, getElem?_schedule.mpr (.inl htask), hsame, hout⟩

theorem Runner.kept_of_commit (htask : r.tasks[id]? = some task)
    (hact : task.Stepped lockStore action done output) {i : ℕ} {after : Task V E}
    (h : (r.commit maxCapturedErrors id done output).tasks[i]? = some after) :
    ∃ before, r.tasks[i]? = some before ∧
      after.observationScopeId = before.observationScopeId ∧ after.previous = before.previous ∧
      (before.stage.isUnlinked = true → after.stage.isUnlinked = true) ∧
      (after.stage ≠ .queued → before.stage ≠ .queued ∨
        i = id ∧ before = task ∧ action = .start) ∧
      (after.stage.isUnlinked = true → before.stage.isUnlinked = true ∨
        i = id ∧ action = .unlinks) := by
  rw [getElem?_commit htask] at h
  split_ifs at h with hi
  · cases h
    rw [hi]
    refine ⟨task, htask, hact.frame.1, hact.frame.2, hact.stage.2.2, fun hbegun => ?_,
      fun hafter => ?_⟩
    · by_cases hqueued : task.stage = .queued
      · rcases hact.stage.1 hqueued with hstart | hstill
        · exact .inr ⟨rfl, rfl, hstart.1⟩
        · exact absurd hstill.1 hbegun
      · exact .inl hqueued
    · cases hbefore : task.stage.isUnlinked with
      | true => exact .inl rfl
      | false => exact .inr ⟨rfl, hact.unlinks_of hbefore hafter⟩
  · exact ⟨after, h, rfl, rfl, fun h => h, .inl, .inl⟩

/-- Every task is still there after a step of one of them. -/
theorem Runner.exists_of_commit (htask : r.tasks[id]? = some task)
    (hact : task.Stepped lockStore action done output) {i : ℕ} {before : Task V E}
    (h : r.tasks[i]? = some before) :
    ∃ after, (r.commit maxCapturedErrors id done output).tasks[i]? = some after ∧
      after.observationScopeId = before.observationScopeId ∧
      (i ≠ id → after = before) := by
  rw [getElem?_commit htask]
  split_ifs with hi
  · rw [hi, htask] at h
    cases h
    exact ⟨done, rfl, hact.frame.1, fun hne => absurd hi hne⟩
  · exact ⟨before, h, rfl, fun _ => rfl⟩

theorem Chained.commit (h : Chained r) (htask : r.tasks[id]? = some task)
    (hact : task.Stepped lockStore action done output)
    (hstart : action = .start → r.isNext task = true) :
    Chained (r.commit maxCapturedErrors id done output) := by
  constructor
  · intro i p after hafter hp
    obtain ⟨before, hbefore, hscope, hprevious, -⟩ := kept_of_commit htask hact hafter
    obtain ⟨hpi, last, hlast, hsame⟩ := h.previous hbefore (hprevious ▸ hp)
    obtain ⟨last', hlast', hsame', -⟩ := exists_of_commit htask hact hlast
    exact ⟨hpi, last', hlast', (hsame'.trans hsame).trans hscope.symm⟩
  · intro i j after other hafter hother hji hscope
    obtain ⟨before, hbefore, hscope₁, hprevious, -⟩ := kept_of_commit htask hact hafter
    obtain ⟨other₀, hother₀, hscope₂, -, hout, -⟩ := kept_of_commit htask hact hother
    rw [hscope₁, hscope₂] at hscope
    rw [hprevious]
    exact (h.earlier hbefore hother₀ hji hscope).imp_left hout
  · intro i j after other hafter hother hji hscope hbegun
    obtain ⟨before, hbefore, hscope₁, -, -, hstarts, -⟩ := kept_of_commit htask hact hafter
    obtain ⟨other₀, hother₀, hscope₂, -, hout, -⟩ := kept_of_commit htask hact hother
    rw [hscope₁, hscope₂] at hscope
    apply hout
    rcases hstarts hbegun with hbegun | ⟨-, rfl, haction⟩
    · exact h.begun hbefore hother₀ hji hscope hbegun
    · exact h.unlinked_of_isNext hbefore (hstart haction) hother₀ hji hscope

theorem Queued.commit (h : Queued r) (htask : r.tasks[id]? = some task)
    (hact : task.Stepped lockStore action done output) (haction : action ≠ .unlinks) :
    Queued (r.commit maxCapturedErrors id done output) := by
  constructor
  · intro i after hafter hout
    obtain ⟨before, hbefore, hscope, -, hkept, -⟩ := kept_of_commit htask hact hafter
    rw [hscope]
    refine h.queue hbefore (Bool.eq_false_iff.mpr fun hunlinked => ?_)
    rw [hkept hunlinked] at hout
    cases hout
  · intro scope last hlast
    obtain ⟨before, hbefore, hscope, hout⟩ := h.entry hlast
    obtain ⟨after, hafter, hsame, -⟩ := exists_of_commit htask hact hbefore
    refine ⟨after, hafter, hsame.trans hscope, Bool.eq_false_iff.mpr fun hunlinked => ?_⟩
    obtain ⟨before', hbefore', -, -, -, -, hunlinks⟩ := kept_of_commit htask hact hafter
    rw [hbefore] at hbefore'
    cases hbefore'
    rcases hunlinks hunlinked with hunlinked | ⟨-, haction'⟩
    · rw [hout] at hunlinked
      cases hunlinked
    · exact haction haction'

theorem Chained.unlink (h : Chained r) : Chained (r.unlink id task) := by
  constructor
  · intro i p task htask hp
    rw [tasks_unlink] at htask ⊢
    exact h.previous htask hp
  · intro i j task before htask hbefore
    rw [tasks_unlink] at htask hbefore
    exact h.earlier htask hbefore
  · intro i j task before htask hbefore
    rw [tasks_unlink] at htask hbefore
    exact h.begun htask hbefore

/-- The entry of a scope goes with the last of its tasks. -/
theorem Queued.unlinks (h : Queued r) (hc : Chained r) (htask : r.tasks[id]? = some task)
    (hact : task.Stepped lockStore .unlinks done output) :
    Queued ((r.commit maxCapturedErrors id done output).unlink id task) := by
  have hdone : done.stage.isUnlinked = true := by
    cases hact
    rfl
  have hbegun : task.stage ≠ .queued := by
    cases hact with
    | unlinks hstage => simp [hstage]
  constructor
  · intro i after hafter hout
    rw [tasks_unlink] at hafter
    have hi : i ≠ id := by
      rintro rfl
      rw [getElem?_commit htask, if_pos rfl] at hafter
      cases hafter
      rw [hdone] at hout
      cases hout
    rw [getElem?_commit htask, if_neg hi] at hafter
    obtain ⟨last, hlast, hle⟩ := h.queue hafter hout
    unfold unlink
    split_ifs with hown
    · by_cases hscope : after.observationScopeId = task.observationScopeId
      · -- a task before this one is out of the queue already
        have hlast : last = id := by
          rw [hscope] at hlast
          exact Option.some.inj (hlast.symm.trans hown)
        have hunlinked := hc.begun htask hafter (lt_of_le_of_ne (hlast ▸ hle) hi) hscope hbegun
        rw [hunlinked] at hout
        cases hout
      · exact ⟨last, (OrderedMap.get?_delete_of_ne hscope).trans hlast, hle⟩
    · exact ⟨last, hlast, hle⟩
  · intro scope last hlast
    rw [tasks_unlink]
    have hentry : r.queuesByScope.get? scope = some last ∧
        (scope = task.observationScopeId → last ≠ id) := by
      unfold unlink at hlast
      split_ifs at hlast with hown
      · rw [OrderedMap.get?_delete] at hlast
        split_ifs at hlast with hscope
        exact ⟨hlast, fun h => absurd h hscope⟩
      · refine ⟨hlast, fun hscope hid => hown ?_⟩
        rw [← hscope, ← hid]
        exact hlast
    obtain ⟨before, hbefore, hscope, hout⟩ := h.entry hentry.1
    have hlast : last ≠ id := by
      intro hid
      rw [hid, htask] at hbefore
      cases hbefore
      exact hentry.2 hscope.symm hid
    rw [getElem?_commit htask, if_neg hlast]
    exact ⟨before, hbefore, hscope, hout⟩

/-! ## Starts and ends -/

def startOf : ℕ × TaskEvent V E → Option ℕ
  | (id, .started) => some id
  | (_, .queued) | (_, .completed _) | (_, .skipped) | (_, .failed _) => none

/-- The tasks that have started, in order. -/
def Runner.started (r : Runner V E) : List ℕ :=
  r.events.filterMap startOf

def Runner.scope? (r : Runner V E) (id : ℕ) : Option String :=
  r.tasks[id]?.map Task.observationScopeId

/-- The tasks of a scope have started in the order of their calls. -/
structure Ordered (r : Runner V E) : Prop where
  begun : ∀ {i : ℕ}, i ∈ r.started ↔ ∃ task, r.tasks[i]? = some task ∧ task.stage ≠ .queued
  sorted : r.started.Pairwise fun i j => r.scope? i = r.scope? j → i < j

structure Flying (r : Runner V E) : Prop where
  nodup : r.inFlightTasks.Nodup
  mem : ∀ {i : ℕ}, i ∈ r.inFlightTasks ↔
    ∃ task, r.tasks[i]? = some task ∧ task.stage.isInFlight = true

theorem Runner.started_commit (hact : task.Stepped lockStore action done output) :
    action = .start ∧ task.stage = .queued ∧
      (r.commit maxCapturedErrors id done output).started = r.started ++ [id] ∨
    action ≠ .start ∧ (r.commit maxCapturedErrors id done output).started = r.started := by
  have hevents : (r.commit maxCapturedErrors id done output).started =
      r.started ++ (output.events.map fun event => (id, event)).filterMap startOf :=
    List.filterMap_append
  by_cases haction : action = .start
  · left
    subst haction
    cases hact with
    | start hstage => exact ⟨rfl, hstage, hevents⟩
  · right
    have hno : .started ∉ output.events := by
      by_cases hqueued : task.stage = .queued
      · exact ((hact.stage.1 hqueued).resolve_left fun h => haction h.1).2
      · exact (hact.stage.2.1 hqueued).2
    refine ⟨haction, ?_⟩
    rw [hevents, List.filterMap_eq_nil_iff.mpr, List.append_nil]
    intro event hevent
    obtain ⟨event, hmem, rfl⟩ := List.mem_map.mp hevent
    cases event with
    | started => exact absurd hmem hno
    | _ => rfl

theorem Runner.scope?_commit (htask : r.tasks[id]? = some task)
    (hact : task.Stepped lockStore action done output) (i : ℕ) :
    (r.commit maxCapturedErrors id done output).scope? i = r.scope? i := by
  unfold scope?
  rw [getElem?_commit htask]
  split_ifs with hi
  · rw [hi, htask, Option.map_some, Option.map_some, hact.frame.1]
  · rfl

theorem Ordered.schedule (h : Ordered r) (observationScopeId : String)
    (taskKind : ObservationLogTaskKind) : Ordered (r.schedule observationScopeId taskKind) := by
  have hstarted : (r.schedule observationScopeId taskKind).started = r.started := by
    simp [Runner.schedule, Runner.started, startOf]
  have hkept : ∀ i ∈ r.started, (r.schedule observationScopeId taskKind).scope? i = r.scope? i := by
    intro i hi
    obtain ⟨task, htask, -⟩ := h.begun.mp hi
    show ((r.tasks ++ [_])[i]?).map _ = r.tasks[i]?.map _
    rw [List.getElem?_append_left (List.getElem?_eq_some_iff.mp htask).1]
  constructor
  · intro i
    rw [hstarted, h.begun]
    constructor
    · rintro ⟨task, htask, hbegun⟩
      exact ⟨task, getElem?_schedule.mpr (.inl htask), hbegun⟩
    · rintro ⟨task, htask, hbegun⟩
      rcases getElem?_schedule.mp htask with htask | ⟨-, rfl⟩
      · exact ⟨task, htask, hbegun⟩
      · exact absurd rfl hbegun
  · rw [hstarted]
    refine h.sorted.imp_of_mem fun hi hj hlt => ?_
    rw [hkept _ hi, hkept _ hj]
    exact hlt

theorem Ordered.commit (h : Ordered r) (hc : Chained r) (htask : r.tasks[id]? = some task)
    (hact : task.Stepped lockStore action done output)
    (hstart : action = .start → r.isNext task = true) :
    Ordered (r.commit maxCapturedErrors id done output) := by
  have hkept : ∀ {i : ℕ}, i ∈ r.started →
      ∃ task, (r.commit maxCapturedErrors id done output).tasks[i]? = some task ∧
        task.stage ≠ .queued := by
    intro i hi
    obtain ⟨before, hbefore, hstage⟩ := h.begun.mp hi
    rw [getElem?_commit htask]
    split_ifs with hid
    · rw [hid, htask] at hbefore
      cases hbefore
      exact ⟨done, rfl, (hact.stage.2.1 hstage).1⟩
    · exact ⟨before, hbefore, hstage⟩
  rcases @Runner.started_commit _ _ _ maxCapturedErrors r id _ _ _ _ hact with
    ⟨haction, hqueued, hstarted⟩ | ⟨haction, hstarted⟩
  · constructor
    · intro i
      rw [hstarted, List.mem_append, List.mem_singleton]
      constructor
      · rintro (hi | rfl)
        · exact hkept hi
        · refine ⟨done, by rw [getElem?_commit htask, if_pos rfl], ?_⟩
          subst haction
          cases hact
          cases lockStore <;> nofun
      · rintro ⟨after, hafter, hbegun⟩
        obtain ⟨before, hbefore, -, -, -, hstarts, -⟩ := kept_of_commit htask hact hafter
        exact (hstarts hbegun).imp (fun hb => h.begun.mpr ⟨before, hbefore, hb⟩) And.left
    · simp only [scope?_commit htask hact]
      rw [hstarted]
      refine List.pairwise_append.mpr ⟨h.sorted, List.pairwise_singleton _ _, ?_⟩
      intro i hi j hj hscope
      obtain rfl := List.mem_singleton.mp hj
      obtain ⟨before, hbefore, hstage⟩ := h.begun.mp hi
      rw [scope?, scope?, hbefore, htask] at hscope
      have hscope : before.observationScopeId = task.observationScopeId :=
        Option.some.inj hscope
      rcases Nat.lt_trichotomy i j with hlt | rfl | hgt
      · exact hlt
      · rw [htask] at hbefore
        cases hbefore
        exact absurd hqueued hstage
      · -- a later task of the scope starts only when this one is out of the queue
        have hunlinked := hc.begun hbefore htask hgt hscope.symm hstage
        rw [hqueued] at hunlinked
        cases hunlinked
  · constructor
    · intro i
      rw [hstarted]
      constructor
      · exact hkept
      · rintro ⟨after, hafter, hbegun⟩
        obtain ⟨before, hbefore, -, -, -, hstarts, -⟩ := kept_of_commit htask hact hafter
        rcases hstarts hbegun with hb | ⟨-, -, hstart⟩
        · exact h.begun.mpr ⟨before, hbefore, hb⟩
        · exact absurd hstart haction
    · simp only [scope?_commit htask hact]
      rw [hstarted]
      exact h.sorted

theorem Flying.schedule (h : Flying r) (observationScopeId : String)
    (taskKind : ObservationLogTaskKind) : Flying (r.schedule observationScopeId taskKind) := by
  have hfresh : r.tasks.length ∉ r.inFlightTasks := by
    intro hin
    obtain ⟨task, htask, -⟩ := h.mem.mp hin
    exact lt_irrefl _ (List.getElem?_eq_some_iff.mp htask).1
  constructor
  · exact h.nodup.append (List.nodup_singleton _) (by simpa using hfresh)
  · intro i
    constructor
    · intro hi
      rcases List.mem_append.mp hi with hi | hi
      · obtain ⟨task, htask, hflying⟩ := h.mem.mp hi
        exact ⟨task, getElem?_schedule.mpr (.inl htask), hflying⟩
      · exact ⟨_, getElem?_schedule.mpr (.inr ⟨List.mem_singleton.mp hi, rfl⟩), rfl⟩
    · rintro ⟨task, htask, hflying⟩
      rcases getElem?_schedule.mp htask with htask | ⟨rfl, -⟩
      · exact List.mem_append_left _ (h.mem.mpr ⟨task, htask, hflying⟩)
      · exact List.mem_append_right _ (List.mem_singleton.mpr rfl)

theorem Flying.commit (h : Flying r) (htask : r.tasks[id]? = some task)
    (hact : task.Stepped lockStore action done output) :
    Flying (r.commit maxCapturedErrors id done output) := by
  have hmem : ∀ {i : ℕ}, i ∈ (r.commit maxCapturedErrors id done output).inFlightTasks ↔
      i ∈ r.inFlightTasks ∧ (output.finished = true → i ≠ id) := by
    intro i
    simp only [Runner.commit]
    split_ifs with hfinished
    · rw [h.nodup.mem_erase_iff, and_comm]
      simp [hfinished]
    · simp [hfinished]
  constructor
  · simp only [Runner.commit]
    split_ifs
    · exact h.nodup.erase id
    · exact h.nodup
  · intro i
    rw [hmem, h.mem, getElem?_commit htask]
    by_cases hi : i = id
    · rw [if_pos hi, hi, htask]
      have hfinished := hact.finished
      cases hbefore : task.stage.isInFlight <;> cases hafter : done.stage.isInFlight <;>
        simp_all
    · rw [if_neg hi]
      simp [hi]

/-! ## The invariant -/

structure Serial (r : Runner V E) : Prop where
  chained : Chained r
  queued : Queued r
  ordered : Ordered r
  flying : Flying r
  sound : ∀ {i : ℕ} {task : Task V E}, r.tasks[i]? = some task → task.Sound

theorem Serial.initial : Serial (.initial : Runner V E) where
  chained := ⟨nofun, nofun, nofun⟩
  queued := ⟨nofun, nofun⟩
  ordered := ⟨by simp [Runner.initial, Runner.started], List.Pairwise.nil⟩
  flying := ⟨List.nodup_nil, by simp [Runner.initial]⟩
  sound := nofun

theorem Serial.commit (h : Serial r) (htask : r.tasks[id]? = some task)
    (hact : task.Stepped lockStore action done output) {i : ℕ} {t : Task V E}
    (ht : (r.commit maxCapturedErrors id done output).tasks[i]? = some t) : t.Sound := by
  rw [getElem?_commit htask] at ht
  split_ifs at ht
  · cases ht
    exact (h.sound htask).act hact
  · exact h.sound ht

/-- **The step lemma.** -/
theorem Serial.next {e : Event V E} (h : Serial r)
    (hs : r.Stepped lockStore maxCapturedErrors e s) : Serial s := by
  cases hs with
  | schedule observationScopeId taskKind =>
    refine ⟨h.chained.schedule h.queued _ _, h.queued.schedule _ _, h.ordered.schedule _ _,
      h.flying.schedule _ _, fun htask => ?_⟩
    rcases getElem?_schedule.mp htask with htask | ⟨-, rfl⟩
    · exact h.sound htask
    · exact ⟨nofun, fun _ => rfl, nofun, nofun⟩
  | act htask hact hstart haction =>
    exact ⟨h.chained.commit htask hact hstart, h.queued.commit htask hact haction,
      h.ordered.commit h.chained htask hact hstart, h.flying.commit htask hact, h.commit htask hact⟩
  | @unlinks id task done output htask hact =>
    have hordered : Ordered (r.commit maxCapturedErrors id done output) :=
      h.ordered.commit h.chained htask hact nofun
    have hflying : Flying (r.commit maxCapturedErrors id done output) :=
      h.flying.commit htask hact
    refine ⟨(h.chained.commit htask hact nofun).unlink, h.queued.unlinks h.chained htask hact,
      ⟨?_, ?_⟩, ⟨?_, ?_⟩, ?_⟩
    · intro i
      rw [Runner.started, events_unlink, tasks_unlink]
      exact hordered.begun
    · simp only [Runner.started, scope?, events_unlink, tasks_unlink]
      exact hordered.sorted
    · rw [inFlightTasks_unlink]
      exact hflying.nodup
    · intro i
      rw [inFlightTasks_unlink, tasks_unlink]
      exact hflying.mem
    · intro i t ht
      rw [tasks_unlink] at ht
      exact h.commit htask hact ht

end Serial

end N8n.AgentMemory
