import N8n.Foundations.OrderedMap
import N8n.Foundations.Transition

/-!
# The wait tracker

The leader polls the waiting executions and arms a timer for each of them. A map from executions to
timers says which timers are armed, and keeps a poll from arming a second one.

## Main definitions

* `State`: the map, the armed timers and the polls that wait for the database
* `getWaitingExecutions`, `startExecution`, `stopExecution`, `startTracking`, `stopTracking`: the
  operations
* `tracker`: the tracker as a transition system
* `Remembered`: a poll after which every execution it returned has an armed timer
* `Current`: a poll that returns no execution whose entry an earlier stepdown left behind

## Main results

* `Inv.next`: an entry has an armed timer unless a stepdown left it behind
* `remembered_iff_current`: executions are remembered along a run exactly when every poll is current
* `not_remembered_retakeover`: a stepdown and a takeover after which an execution is forgotten
-/

namespace N8n.Waiting

open OrderedMap

/-- A timer that resumes an execution after a delay. -/
structure Timer where
  id : ℕ
  executionId : String
  delay : ℤ
deriving DecidableEq, Repr

/-- A row that a poll returns. -/
structure WaitingExecution where
  id : String
  waitTill : ℤ
deriving DecidableEq, Repr

/-- A tracker in its process. Timers and intervals are numbered in the order in which they are
created. -/
structure State where
  waitingExecutions : OrderedMap String Timer
  mainTimer : Option ℕ
  armed : List Timer
  intervals : List ℕ
  created : ℕ
  /-- The polls whose query has not returned. -/
  polls : ℕ
  /-- The last change of leadership was a takeover. -/
  tracking : Bool
  /-- The executions whose entries the last stepdown, or one before it, left behind. -/
  abandoned : List String

namespace State

def initial : State := ⟨.empty, none, [], [], 0, 0, false, []⟩

/-! ## Operations -/

/-- One turn of the loop over the rows of a poll. -/
def addTimer (now : ℤ) (s : State) (execution : WaitingExecution) : State :=
  match s.waitingExecutions.get? execution.id with
  | some _ => s
  | none =>
    let timer : Timer := ⟨s.created, execution.id, execution.waitTill - now⟩
    { s with
      waitingExecutions := s.waitingExecutions.set execution.id timer
      armed := s.armed ++ [timer]
      created := s.created + 1 }

/-- What a poll does once its query has returned. -/
def getWaitingExecutions (s : State) (now : ℤ) (executions : List WaitingExecution) : State :=
  executions.foldl (addTimer now) s

/-- Delete the entry of an execution. -/
def forget (s : State) (executionId : String) : State :=
  { s with
    waitingExecutions := s.waitingExecutions.delete executionId
    abandoned := s.abandoned.filter fun id => id ≠ executionId }

def stopExecution (s : State) (executionId : String) : State :=
  match s.waitingExecutions.get? executionId with
  | none => s
  | some timer => { s with armed := s.armed.filter fun t => t ≠ timer }.forget executionId

/-- What resuming an execution does before it first waits. -/
def startExecution (s : State) (executionId : String) : State := s.forget executionId

/-- The leader takes over: it polls at once, and whenever the interval ticks. -/
def startTracking (s : State) : State :=
  { s with
    mainTimer := some s.created
    intervals := s.intervals ++ [s.created]
    created := s.created + 1
    polls := s.polls + 1
    tracking := true }

/-- The leader steps down: the timers are cleared, and their entries stay. -/
def stopTracking (s : State) : State :=
  match s.mainTimer with
  | none => { s with tracking := false }
  | some mainTimer =>
    { s with
      intervals := s.intervals.erase mainTimer
      armed := s.armed.filter fun timer => timer ∉ s.waitingExecutions.values
      tracking := false
      abandoned := s.waitingExecutions.keys }

end State

/-! ## Runs -/

inductive Event
  | startTracking
  | stopTracking
  | tick (interval : ℕ)
  | pollReturns (now : ℤ) (executions : List WaitingExecution)
  | pollFails
  | fire (timer : Timer)
  | startExecution (executionId : String)
  | stopExecution (executionId : String)
deriving DecidableEq, Repr

def State.next (s : State) : Event → Option State
  | .startTracking => some s.startTracking
  | .stopTracking => some s.stopTracking
  | .tick interval => if interval ∈ s.intervals then some { s with polls := s.polls + 1 } else none
  | .pollReturns now executions =>
    if 0 < s.polls then
      some ({ s with polls := s.polls - 1 }.getWaitingExecutions now executions)
    else none
  | .pollFails => if 0 < s.polls then some { s with polls := s.polls - 1 } else none
  | .fire timer =>
    if timer ∈ s.armed then
      some ({ s with armed := s.armed.filter fun t => t ≠ timer }.startExecution timer.executionId)
    else none
  | .startExecution executionId => some (s.startExecution executionId)
  | .stopExecution executionId => some (s.stopExecution executionId)

def tracker : Transition.System State Event where
  init s := s = .initial
  step s e t := s.next e = some t

/-- After a poll made while tracking, the entry of every execution it returned has an armed timer,
so the execution has a live timer and no stale entry stands in the way of one. -/
def Remembered (s : State) (e : Event) (t : State) : Prop :=
  match e with
  | .pollReturns _ executions => s.tracking = true → ∀ execution ∈ executions,
      ∃ timer ∈ t.armed, timer.executionId = execution.id ∧
        t.waitingExecutions.get? execution.id = some timer
  | _ => True

/-- A poll made while tracking returns no execution whose entry a stepdown left behind. -/
def Current (s : State) : Event → Prop
  | .pollReturns _ executions => s.tracking = true → ∀ execution ∈ executions,
      execution.id ∉ s.abandoned
  | _ => True

/-! ## Entries and timers -/

/-- An entry has an armed timer unless a stepdown left it behind. -/
structure Inv (s : State) : Prop where
  owner : ∀ id timer, s.waitingExecutions.get? id = some timer → timer.executionId = id
  armed_iff : ∀ id timer, s.waitingExecutions.get? id = some timer →
    (timer ∈ s.armed ↔ id ∉ s.abandoned)
  abandoned : ∀ id ∈ s.abandoned, ∃ timer, s.waitingExecutions.get? id = some timer
  armed_lt : ∀ timer ∈ s.armed, timer.id < s.created
  entry_lt : ∀ id timer, s.waitingExecutions.get? id = some timer → timer.id < s.created

theorem inv_initial : Inv .initial := by
  refine ⟨?_, ?_, ?_, ?_, ?_⟩
  · intro id timer h
    cases h
  · intro id timer h
    cases h
  · intro id h
    cases h
  · intro timer h
    cases h
  · intro id timer h
    cases h

section Steps

variable {s t : State} {e : Event}

theorem Inv.addTimer (h : Inv s) (now : ℤ) (execution : WaitingExecution) :
    Inv (s.addTimer now execution) := by
  unfold State.addTimer
  split
  · exact h
  · rename_i hnone
    have hnot : execution.id ∉ s.abandoned := by
      intro hin
      obtain ⟨timer, hsome⟩ := h.abandoned _ hin
      rw [hnone] at hsome
      cases hsome
    refine ⟨?_, ?_, ?_, ?_, ?_⟩
    · intro id timer hget
      rw [get?_set] at hget
      split_ifs at hget with heq
      · rw [← Option.some.inj hget, heq]
      · exact h.owner id timer hget
    · intro id timer hget
      rw [get?_set] at hget
      split_ifs at hget with heq
      · subst heq
        simp [← Option.some.inj hget, hnot]
      · -- the new timer is not the timer of an older entry
        have hold : timer ≠ ⟨s.created, execution.id, execution.waitTill - now⟩ := by
          rintro rfl
          exact heq (h.owner id _ hget).symm
        rw [← h.armed_iff id timer hget]
        simp [hold]
    · intro id hin
      obtain ⟨timer, hsome⟩ := h.abandoned id hin
      have hne : id ≠ execution.id := fun heq => hnot (heq ▸ hin)
      exact ⟨timer, by rw [get?_set_of_ne hne, hsome]⟩
    · intro timer hin
      rcases List.mem_append.mp hin with hin | hin
      · exact Nat.lt_succ_of_lt (h.armed_lt timer hin)
      · rw [List.mem_singleton.mp hin]
        exact Nat.lt_succ_self _
    · intro id timer hget
      rw [get?_set] at hget
      split_ifs at hget with heq
      · rw [← Option.some.inj hget]
        exact Nat.lt_succ_self _
      · exact Nat.lt_succ_of_lt (h.entry_lt id timer hget)

theorem Inv.getWaitingExecutions (h : Inv s) (now : ℤ) (executions : List WaitingExecution) :
    Inv (s.getWaitingExecutions now executions) := by
  unfold State.getWaitingExecutions
  induction executions generalizing s with
  | nil => exact h
  | cons execution executions ih => exact ih (h.addTimer now execution)

/-- Deleting an entry, after its timer fired, was cleared, or was left to others. -/
theorem Inv.forget (h : Inv s) (executionId : String) {armed : List Timer}
    (hsub : ∀ timer ∈ armed, timer ∈ s.armed)
    (hkept : ∀ timer ∈ s.armed, timer.executionId ≠ executionId → timer ∈ armed) :
    Inv ({ s with armed }.forget executionId) := by
  have hget : ∀ {id timer}, (s.waitingExecutions.delete executionId).get? id = some timer →
      id ≠ executionId ∧ s.waitingExecutions.get? id = some timer := by
    intro id timer hget
    rw [get?_delete] at hget
    split_ifs at hget with heq
    exact ⟨heq, hget⟩
  refine ⟨?_, ?_, ?_, ?_, ?_⟩
  · intro id timer hsome
    exact h.owner id timer (hget hsome).2
  · intro id timer hsome
    obtain ⟨hne, hsome⟩ := hget hsome
    have hiff : timer ∈ armed ↔ timer ∈ s.armed := by
      refine ⟨hsub timer, fun hin => hkept timer hin ?_⟩
      rw [h.owner id timer hsome]
      exact hne
    show timer ∈ armed ↔ id ∉ s.abandoned.filter fun id => id ≠ executionId
    rw [hiff, h.armed_iff id timer hsome]
    simp [hne]
  · intro id hin
    obtain ⟨hin, hne⟩ := List.mem_filter.mp hin
    obtain ⟨timer, hsome⟩ := h.abandoned id hin
    refine ⟨timer, ?_⟩
    show (s.waitingExecutions.delete executionId).get? id = some timer
    rw [get?_delete_of_ne (by simpa using hne), hsome]
  · intro timer hin
    exact h.armed_lt timer (hsub timer hin)
  · intro id timer hsome
    exact h.entry_lt id timer (hget hsome).2

theorem Inv.stopTracking (h : Inv s) : Inv s.stopTracking := by
  unfold State.stopTracking
  split
  · exact ⟨h.owner, h.armed_iff, h.abandoned, h.armed_lt, h.entry_lt⟩
  · refine ⟨h.owner, ?_, ?_, ?_, h.entry_lt⟩
    · intro id timer hget
      have hvalue : timer ∈ s.waitingExecutions.values := mem_values.mpr ⟨id, hget⟩
      have hkey : id ∈ s.waitingExecutions.keys := mem_keys.mpr ⟨timer, hget⟩
      simp [hvalue, hkey]
    · intro id hin
      exact mem_keys.mp hin
    · intro timer hin
      exact h.armed_lt timer (List.mem_filter.mp hin).1

/-- **Entries and timers**: every event keeps the invariant. -/
theorem Inv.next (h : Inv s) (hn : s.next e = some t) : Inv t := by
  cases e with
  | startTracking =>
    cases hn
    exact ⟨h.owner, h.armed_iff, h.abandoned, fun timer hin => Nat.lt_succ_of_lt (h.armed_lt timer hin),
      fun id timer hget => Nat.lt_succ_of_lt (h.entry_lt id timer hget)⟩
  | stopTracking =>
    cases hn
    exact h.stopTracking
  | tick interval =>
    simp only [State.next] at hn
    split_ifs at hn
    cases hn
    exact ⟨h.owner, h.armed_iff, h.abandoned, h.armed_lt, h.entry_lt⟩
  | pollReturns now executions =>
    simp only [State.next] at hn
    split_ifs at hn
    cases hn
    apply Inv.getWaitingExecutions
    exact ⟨h.owner, h.armed_iff, h.abandoned, h.armed_lt, h.entry_lt⟩
  | pollFails =>
    simp only [State.next] at hn
    split_ifs at hn
    cases hn
    exact ⟨h.owner, h.armed_iff, h.abandoned, h.armed_lt, h.entry_lt⟩
  | fire timer =>
    simp only [State.next] at hn
    split_ifs at hn
    cases hn
    refine h.forget timer.executionId ?_ ?_
    · intro other hin
      exact (List.mem_filter.mp hin).1
    · intro other hin hne
      refine List.mem_filter.mpr ⟨hin, ?_⟩
      simp only [ne_eq, decide_eq_true_eq]
      rintro rfl
      exact hne rfl
  | startExecution executionId =>
    cases hn
    exact h.forget executionId (fun _ hin => hin) fun _ hin _ => hin
  | stopExecution executionId =>
    cases hn
    unfold State.stopExecution
    split
    · exact h
    · rename_i timer hget
      refine h.forget executionId ?_ ?_
      · intro other hin
        exact (List.mem_filter.mp hin).1
      · intro other hin hne
        refine List.mem_filter.mpr ⟨hin, ?_⟩
        simp only [ne_eq, decide_eq_true_eq]
        rintro rfl
        exact hne (h.owner executionId other hget)

/-! ## Polls -/

theorem abandoned_getWaitingExecutions (now : ℤ) (executions : List WaitingExecution) :
    (s.getWaitingExecutions now executions).abandoned = s.abandoned := by
  unfold State.getWaitingExecutions
  induction executions generalizing s with
  | nil => rfl
  | cons execution executions ih =>
    rw [List.foldl_cons, ih]
    unfold State.addTimer
    split <;> rfl

/-- The loop keeps the entries there are. -/
theorem get?_getWaitingExecutions {now : ℤ} {executions : List WaitingExecution} {id : String}
    {timer : Timer} (h : s.waitingExecutions.get? id = some timer) :
    (s.getWaitingExecutions now executions).waitingExecutions.get? id = some timer := by
  unfold State.getWaitingExecutions
  induction executions generalizing s with
  | nil => exact h
  | cons execution executions ih =>
    refine ih ?_
    unfold State.addTimer
    split
    · exact h
    · rename_i hnone
      have hne : id ≠ execution.id := by
        rintro rfl
        rw [hnone] at h
        cases h
      rw [get?_set_of_ne hne, h]

/-- After the loop every row has an entry. -/
theorem exists_entry {now : ℤ} {executions : List WaitingExecution} {execution : WaitingExecution}
    (h : execution ∈ executions) :
    ∃ timer, (s.getWaitingExecutions now executions).waitingExecutions.get? execution.id =
      some timer := by
  induction executions generalizing s with
  | nil => cases h
  | cons first executions ih =>
    rcases List.mem_cons.mp h with rfl | h
    · have hadded : ∃ timer, (s.addTimer now execution).waitingExecutions.get? execution.id =
          some timer := by
        unfold State.addTimer
        split
        · rename_i timer hget
          exact ⟨timer, hget⟩
        · exact ⟨_, get?_set_self⟩
      obtain ⟨timer, hget⟩ := hadded
      exact ⟨timer, @get?_getWaitingExecutions (s.addTimer now execution) now executions _ _ hget⟩
    · exact @ih (s.addTimer now first) h

/-- **One poll remembers its executions exactly when** it returns no execution that a stepdown left
behind. -/
theorem remembered_next_iff (h : Inv s) (hn : s.next e = some t) :
    Remembered s e t ↔ Current s e := by
  have ht := h.next hn
  cases e with
  | pollReturns now executions =>
    simp only [State.next] at hn
    split_ifs at hn
    cases hn
    unfold Remembered Current
    refine imp_congr_right fun _ => forall₂_congr fun execution hin => ?_
    obtain ⟨timer, hget⟩ := @exists_entry { s with polls := s.polls - 1 } now executions execution hin
    have hiff := ht.armed_iff _ timer hget
    rw [abandoned_getWaitingExecutions] at hiff
    rw [← hiff]
    constructor
    · rintro ⟨other, hother, -, hsome⟩
      rw [hget] at hsome
      exact Option.some.inj hsome ▸ hother
    · intro harmed
      exact ⟨timer, harmed, ht.owner _ timer hget, hget⟩
  | _ => exact Iff.rfl

/-- **Executions are remembered along a run exactly when** every poll is current. -/
theorem remembered_iff_current {es : List Event} (h : tracker.init s) :
    (tracker.restrict Remembered).Run s es t ↔
      (tracker.restrict fun s e _ => Current s e).Run s es t := by
  subst h
  refine Transition.System.Run.restrict_congr (I := Inv) inv_initial ?_ ?_
  · intro u e v hu hn _
    exact hu.next hn
  · intro u e v hu hn
    exact remembered_next_iff hu hn

end Steps

/-! ## A stepdown and a takeover -/

/-- The leader arms a timer for an execution. -/
theorem remembered_iff_current_poll : ∃ t, (tracker.restrict Remembered).Run .initial
    [.startTracking, .pollReturns 0 [⟨"42", 1000⟩]] t := by
  refine ⟨_, (remembered_iff_current rfl).mpr
    (.restrict_cons rfl trivial (.restrict_cons rfl ?_ .nil))⟩
  intro _ execution _
  exact List.not_mem_nil

/-- The leader steps down while an execution waits, takes over again, and polls. -/
def retakeover : List Event :=
  [.startTracking, .pollReturns 0 [⟨"42", 60000⟩], .stopTracking, .startTracking,
    .pollReturns 10000 [⟨"42", 60000⟩]]

def retakeoverEnd : State := (Transition.System.follow State.next retakeover .initial).get rfl

/-- The entry that the stepdown left keeps the poll from arming a timer, and none is armed. -/
theorem not_remembered_retakeover :
    tracker.Run .initial retakeover retakeoverEnd ∧ retakeoverEnd.armed = [] ∧
      ¬ ∃ t, (tracker.restrict Remembered).Run .initial retakeover t := by
  refine ⟨Transition.System.run_of_follow id (Option.some_get _).symm, by decide, ?_⟩
  rintro ⟨t, h⟩
  have hend : t = retakeoverEnd := Option.some.inj
    ((Transition.System.follow_of_run id h.of_restrict).symm.trans (Option.some_get _).symm)
  have hlast : (tracker.restrict Remembered).Run .initial
      (retakeover.take 4 ++ [.pollReturns 10000 [⟨"42", 60000⟩]]) t := h
  obtain ⟨u, hu, hstep, hremembered⟩ := hlast.exists_last
  have htracking : u.tracking = true := by
    have := Transition.System.follow_of_run id hu.of_restrict
    rw [← Option.some.inj this]
    rfl
  subst hend
  obtain ⟨timer, harmed, -⟩ := hremembered htracking ⟨"42", 60000⟩ (by decide)
  exact absurd harmed (by decide +revert)

end N8n.Waiting
