import Mathlib.Data.List.Basic
import Mathlib.Order.Basic
import Mathlib.Tactic.ByContra
import Mathlib.Tactic.SplitIfs
import N8n.Foundations.Transition

/-!
# The batching publisher of lifecycle events

A publisher buffers events and hands them to the host in batches, one batch at a time. A drain loop
sends the batches. It is started when a batch is full, when the flush timer fires and on shutdown,
and a field says whether it is running. The field is reset in a microtask of its own, after the loop
has ended.

## Main definitions

* `Publisher`: a publisher, with what it has accepted and handed over so far
* `publish`, `stop`, `startDraining`, `turn`: the operations
* `publisher`: publishers as a transition system
* `Slip`: a call that finds the loop ended and the field not yet reset

## Main results

* `Conserved.next`: accepted events are handed over in order, discarded, or still in the buffer
* `Watched.next`: without a slip no event in the buffer is forgotten
* `publisher_run`: both along any run
* `not_delivered`: a shutdown that gives up, and a slip after which an event is forgotten
-/

namespace N8n.LifecycleEvents

variable {ε : Type}

/-! ## Publishers -/

/-- The drain loop, and what is left of it once it has ended. -/
inductive Drain (ε : Type)
  /-- `draining` is `undefined`. -/
  | idle
  /-- Recorded, and not yet past its first `await`. -/
  | starting
  | sending (batch : List ε)
  /-- The loop has ended, and the microtask that resets `draining` is still to run. -/
  | ended
deriving DecidableEq, Repr

/-- The loop will look at the buffer again. -/
def Drain.isRunning : Drain ε → Bool
  | starting | sending _ => true
  | idle | ended => false

/-- No microtask of the drain is queued, so that a timer can fire. -/
def Drain.isQuiet : Drain ε → Bool
  | idle | sending _ => true
  | starting | ended => false

/-- What is written to the console, with the number of events dropped. -/
inductive Warning
  | backlogFull (dropped : ℕ)
  | callbackFailed (dropped : ℕ)
  | stopped (dropped : ℕ)
deriving DecidableEq, Repr

def Warning.text : Warning → String
  | backlogFull dropped =>
    "engine: lifecycle event backlog full, dropped " ++ toString dropped ++ " event(s)"
  | callbackFailed dropped =>
    "engine: lifecycle event callback failed, dropped " ++ toString dropped ++ " event(s)"
  | stopped dropped =>
    "engine: lifecycle event publisher stopped, dropped " ++ toString dropped ++
      " unsent event(s)"

structure Publisher (ε : Type) where
  pending : List ε
  flushTimer : Bool
  draining : Drain ε
  stopped : Bool
  abandoned : Bool
  dropped : ℕ
  warnings : List Warning
  /-- The drain loops started so far. -/
  drains : ℕ
  /-- For every call of `stop` that has not returned, the drain loop it waits for. -/
  stops : List ℕ
  /-- The events accepted so far. -/
  accepted : List ε
  /-- The batches handed to the host so far. -/
  handed : List (List ε)
  /-- The events discarded after shutdown had given up. -/
  discarded : List ε
deriving DecidableEq, Repr

namespace Publisher

def initial : Publisher ε := ⟨[], false, .idle, false, false, 0, [], 0, [], [], [], []⟩

/-! ## Operations -/

section Operations

variable (batchSize maxPending : ℕ) (p : Publisher ε)

def reportDropped : Publisher ε :=
  if p.dropped = 0 then p
  else { p with dropped := 0, warnings := p.warnings ++ [.backlogFull p.dropped] }

def arm : Publisher ε := { p with flushTimer := true }

def disarm : Publisher ε := { p with flushTimer := false }

/-- Start the drain loop, unless `draining` says that it is running. -/
def startDraining : Publisher ε :=
  match p.disarm.draining with
  | .idle => { p.disarm with draining := .starting, drains := p.drains + 1 }
  | _ => p.disarm

def publish (event : ε) : Publisher ε :=
  if p.stopped then p
  else if maxPending ≤ p.pending.length then { p with dropped := p.dropped + 1 }
  else
    let p := { p with pending := p.pending ++ [event], accepted := p.accepted ++ [event] }
    if batchSize ≤ p.pending.length then p.startDraining else p.arm

/-- The head of the drain loop: hand over the next batch, or end. -/
def turn : Publisher ε :=
  if p.pending ≠ [] ∧ p.abandoned = false then
    let batch := p.pending.take batchSize
    { { p with pending := p.pending.drop batchSize }.reportDropped with
      draining := .sending batch
      handed := p.handed ++ [batch] }
  else if p.pending ≠ [] then
    { p with
      pending := []
      draining := .ended
      discarded := p.discarded ++ p.pending
      warnings := p.warnings ++ [.stopped p.pending.length] }
  else { p with draining := .ended }

/-- What `stop` does before it waits. -/
def stop : Publisher ε :=
  let p := { p with stopped := true }.startDraining
  { p with stops := p.stops ++ [p.drains] }

/-- A drain loop has ended and `draining` was reset since. -/
def hasReset (drain : ℕ) : Bool := drain < p.drains || (drain = p.drains && p.draining matches .idle)

end Operations

end Publisher

/-! ## Runs -/

inductive Event (ε : Type)
  | publish (event : ε)
  | timerFires
  /-- The first `await` of a drain loop. -/
  | begins
  /-- The host's callback resolves, rejects or outlives its deadline. -/
  | settles (failed : Bool)
  /-- The microtask that follows the end of a drain loop. -/
  | resets
  | stop
  /-- A call of `stop` returns before its deadline. -/
  | stopReturns (drain : ℕ)
  /-- The deadline of a call of `stop` passes. -/
  | stopExpires (drain : ℕ)
deriving DecidableEq, Repr

section Runs

variable (batchSize maxPending : ℕ)

def Publisher.next (p : Publisher ε) : Event ε → Option (Publisher ε)
  | .publish event => some (p.publish batchSize maxPending event)
  | .timerFires =>
    if p.flushTimer = true ∧ p.draining.isQuiet = true then
      some { p with flushTimer := false }.startDraining
    else none
  | .begins =>
    match p.draining with
    | .starting => some (p.turn batchSize)
    | _ => none
  | .settles failed =>
    match p.draining with
    | .sending batch =>
      let warnings := if failed then p.warnings ++ [.callbackFailed batch.length] else p.warnings
      some ({ p with warnings := warnings }.turn batchSize)
    | _ => none
  | .resets =>
    match p.draining with
    | .ended => some { p with draining := .idle }
    | _ => none
  | .stop => some p.stop
  | .stopReturns drain =>
    if drain ∈ p.stops ∧ p.hasReset drain = true then
      some { p with stops := p.stops.erase drain }.reportDropped
    else none
  -- a timer fires between microtasks, so that the loop that is waited for is in a callback
  | .stopExpires drain =>
    if drain ∈ p.stops ∧ p.hasReset drain = false ∧ p.draining.isQuiet = true then
      some { p with stops := p.stops.erase drain, abandoned := true }.reportDropped
    else none

/-- Any interleaving of calls, timers, callbacks and microtasks. -/
def publisher : Transition.System (Publisher ε) (Event ε) where
  init p := p = .initial
  step p e q := p.next batchSize maxPending e = some q

/-- A call that relies on a drain loop that has ended and is still recorded: the event fills a
batch, or shutdown begins, with events in the buffer. -/
def Slip (p : Publisher ε) (e : Event ε) : Prop :=
  p.draining = .ended ∧
    match e with
    | .publish _ =>
      p.stopped = false ∧ p.pending.length < maxPending ∧ batchSize ≤ p.pending.length + 1
    | .stop => p.pending ≠ []
    | _ => False

end Runs

/-! ## What the operations change -/

namespace Publisher

section Fields

variable (p : Publisher ε)

@[simp] theorem reportDropped_pending : p.reportDropped.pending = p.pending := by
  unfold reportDropped; split_ifs <;> rfl

@[simp] theorem reportDropped_flushTimer : p.reportDropped.flushTimer = p.flushTimer := by
  unfold reportDropped; split_ifs <;> rfl

@[simp] theorem reportDropped_draining : p.reportDropped.draining = p.draining := by
  unfold reportDropped; split_ifs <;> rfl

@[simp] theorem reportDropped_stopped : p.reportDropped.stopped = p.stopped := by
  unfold reportDropped; split_ifs <;> rfl

@[simp] theorem reportDropped_abandoned : p.reportDropped.abandoned = p.abandoned := by
  unfold reportDropped; split_ifs <;> rfl

@[simp] theorem reportDropped_drains : p.reportDropped.drains = p.drains := by
  unfold reportDropped; split_ifs <;> rfl

@[simp] theorem reportDropped_stops : p.reportDropped.stops = p.stops := by
  unfold reportDropped; split_ifs <;> rfl

@[simp] theorem reportDropped_accepted : p.reportDropped.accepted = p.accepted := by
  unfold reportDropped; split_ifs <;> rfl

@[simp] theorem reportDropped_handed : p.reportDropped.handed = p.handed := by
  unfold reportDropped; split_ifs <;> rfl

@[simp] theorem reportDropped_discarded : p.reportDropped.discarded = p.discarded := by
  unfold reportDropped; split_ifs <;> rfl

/-- Starting the drain loop disarms the timer, and records a loop where none is recorded. -/
theorem startDraining_cases :
    (p.draining = .idle ∧ p.startDraining =
      { p with flushTimer := false, draining := .starting, drains := p.drains + 1 }) ∨
    (p.draining ≠ .idle ∧ p.startDraining = { p with flushTimer := false }) := by
  unfold startDraining disarm
  cases h : p.draining <;> simp

/-- The head of the loop hands over a batch, discards the buffer, or finds it empty. -/
theorem turn_cases (batchSize : ℕ) :
    (p.abandoned = false ∧ p.turn batchSize =
      { { p with pending := p.pending.drop batchSize }.reportDropped with
        draining := .sending (p.pending.take batchSize)
        handed := p.handed ++ [p.pending.take batchSize] }) ∨
    (p.abandoned = true ∧ p.turn batchSize =
      { p with
        pending := []
        draining := .ended
        discarded := p.discarded ++ p.pending
        warnings := p.warnings ++ [.stopped p.pending.length] }) ∨
    (p.pending = [] ∧ p.turn batchSize = { p with draining := .ended }) := by
  unfold turn
  split_ifs with hsend hpending
  · exact .inl ⟨hsend.2, rfl⟩
  · refine .inr (.inl ⟨?_, rfl⟩)
    cases habandoned : p.abandoned with
    | true => rfl
    | false => exact absurd ⟨hpending, habandoned⟩ hsend
  · exact .inr (.inr ⟨not_not.mp hpending, rfl⟩)

end Fields

end Publisher

variable {batchSize maxPending : ℕ} {p q : Publisher ε} {e : Event ε} {es : List (Event ε)}

/-! ## Accepted events are handed over in order -/

/-- The accepted events are, in the order in which they were published, those handed over, those
discarded once shutdown had given up, and those in the buffer. -/
structure Conserved (p : Publisher ε) : Prop where
  order : p.accepted = p.handed.flatten ++ p.discarded ++ p.pending
  discarded : p.abandoned = false → p.discarded = []

theorem Conserved.of_eq (h : Conserved p) (ha : q.accepted = p.accepted)
    (hh : q.handed = p.handed) (hd : q.discarded = p.discarded) (hp : q.pending = p.pending)
    (hb : q.abandoned = false → p.abandoned = false) : Conserved q where
  order := by rw [ha, hh, hd, hp, h.order]
  discarded hq := by rw [hd, h.discarded (hb hq)]

theorem Conserved.startDraining (h : Conserved p) : Conserved p.startDraining := by
  rcases p.startDraining_cases with ⟨-, heq⟩ | ⟨-, heq⟩ <;> rw [heq] <;>
    exact h.of_eq rfl rfl rfl rfl id

theorem Conserved.reportDropped (h : Conserved p) : Conserved p.reportDropped :=
  h.of_eq (by simp) (by simp) (by simp) (by simp) (by simp)

theorem Conserved.publish {event : ε} (h : Conserved p) :
    Conserved (p.publish batchSize maxPending event) := by
  unfold Publisher.publish
  split_ifs with hstopped hfull
  · exact h
  · exact h.of_eq rfl rfl rfl rfl id
  · have hp : Conserved { p with
        pending := p.pending ++ [event], accepted := p.accepted ++ [event] } :=
      ⟨by simp only [h.order, List.append_assoc], h.discarded⟩
    dsimp only
    split_ifs
    · exact hp.startDraining
    · exact hp.of_eq rfl rfl rfl rfl id

theorem Conserved.turn (h : Conserved p) : Conserved (p.turn batchSize) := by
  rcases p.turn_cases batchSize with ⟨habandoned, heq⟩ | ⟨habandoned, heq⟩ | ⟨-, heq⟩
  · -- the loop only sends while nothing was discarded
    rw [heq]
    refine ⟨?_, ?_⟩
    · have hnone := h.discarded habandoned
      simp [h.order, hnone]
    · intro _
      simpa using h.discarded habandoned
  · rw [heq]
    refine ⟨?_, ?_⟩
    · simp [h.order]
    · intro hfalse
      exact absurd habandoned (by simp [show p.abandoned = false from hfalse])
  · rw [heq]
    exact h.of_eq rfl rfl rfl rfl id

/-- **The step lemma**: nothing accepted is lost, duplicated or reordered. -/
theorem Conserved.next (h : Conserved p) (hs : p.next batchSize maxPending e = some q) :
    Conserved q := by
  cases e with
  | publish event =>
    cases hs
    exact h.publish
  | timerFires =>
    simp only [Publisher.next] at hs
    split_ifs at hs
    cases hs
    exact Conserved.startDraining (h.of_eq rfl rfl rfl rfl id)
  | begins =>
    simp only [Publisher.next] at hs
    split at hs
    · cases hs
      exact h.turn
    · cases hs
  | settles failed =>
    simp only [Publisher.next] at hs
    split at hs
    · cases hs
      exact Conserved.turn (h.of_eq rfl rfl rfl rfl id)
    · cases hs
  | resets =>
    simp only [Publisher.next] at hs
    split at hs
    · cases hs
      exact h.of_eq rfl rfl rfl rfl id
    · cases hs
  | stop =>
    cases hs
    have hp : Conserved { p with stopped := true }.startDraining :=
      Conserved.startDraining (h.of_eq rfl rfl rfl rfl id)
    exact hp.of_eq rfl rfl rfl rfl id
  | stopReturns drain =>
    simp only [Publisher.next] at hs
    split_ifs at hs
    cases hs
    exact Conserved.reportDropped (h.of_eq rfl rfl rfl rfl id)
  | stopExpires drain =>
    simp only [Publisher.next] at hs
    split_ifs at hs
    cases hs
    exact Conserved.reportDropped (h.of_eq rfl rfl rfl rfl (fun hfalse => by cases hfalse))

/-! ## No event in the buffer is forgotten -/

/-- While there are events in the buffer the timer is armed or the loop is running, and after the
beginning of a shutdown the loop is running that the shutdown waits for. -/
structure Watched (p : Publisher ε) : Prop where
  buffer : p.pending ≠ [] →
    (p.stopped = false ∧ p.flushTimer = true) ∨ p.draining.isRunning = true
  stops : ∀ drain ∈ p.stops, p.stopped = true
  current : p.stopped = true → p.pending ≠ [] → ∀ drain ∈ p.stops, drain = p.drains
  abandoned : p.abandoned = true → p.stopped = true

theorem Watched.initial : Watched (.initial : Publisher ε) where
  buffer h := absurd rfl h
  stops drain h := by cases h
  current h := by cases h
  abandoned h := by cases h

/-- A buffer that shutdown has found is looked at by a running loop. -/
theorem Watched.running_of_stopped (h : Watched p) (hstopped : p.stopped = true)
    (hp : p.pending ≠ []) : p.draining.isRunning = true := by
  rcases h.buffer hp with ⟨hnot, -⟩ | hrunning
  · rw [hstopped] at hnot
    cases hnot
  · exact hrunning

theorem Watched.of_eq (h : Watched p) (hp : q.pending = p.pending)
    (ht : q.flushTimer = p.flushTimer) (hd : q.draining = p.draining) (hs : q.stopped = p.stopped)
    (hn : q.drains = p.drains) (hw : ∀ drain ∈ q.stops, drain ∈ p.stops)
    (ha : q.abandoned = true → p.stopped = true) : Watched q where
  buffer hq := by
    rw [hp] at hq
    rw [hs, ht, hd]
    exact h.buffer hq
  stops drain hdrain := hs.trans (h.stops drain (hw drain hdrain))
  current hq hpq drain hdrain := by
    rw [hn]
    exact h.current (hs.symm.trans hq) (hp ▸ hpq) drain (hw drain hdrain)
  abandoned hq := hs.trans (ha hq)

theorem Watched.publish {event : ε} (h : Watched p)
    (hslip : ¬ Slip batchSize maxPending p (.publish event)) :
    Watched (p.publish batchSize maxPending event) := by
  unfold Publisher.publish
  split_ifs with hstopped hfull
  · exact h
  · exact h.of_eq rfl rfl rfl rfl rfl (fun _ => id) h.abandoned
  · have hopen : p.stopped = false := by simpa using hstopped
    have closed : p.stopped ≠ true := by simp [hopen]
    dsimp only
    split_ifs with hbatch
    · rcases Publisher.startDraining_cases { p with
        pending := p.pending ++ [event], accepted := p.accepted ++ [event] } with
        ⟨-, heq⟩ | ⟨hdraining, heq⟩
      · rw [heq]
        refine ⟨fun _ => .inr rfl, h.stops, fun hq => absurd hq closed, h.abandoned⟩
      · -- the loop that is recorded is running, or this is a slip
        rw [heq]
        refine ⟨fun _ => .inr ?_, h.stops, fun hq => absurd hq closed, h.abandoned⟩
        show p.draining.isRunning = true
        cases hd : p.draining with
        | idle => exact absurd hd hdraining
        | starting => rfl
        | sending batch => rfl
        | ended =>
          refine absurd ⟨hd, hopen, Nat.lt_of_not_le hfull, ?_⟩ hslip
          simpa using hbatch
    · exact ⟨fun _ => .inl ⟨hopen, rfl⟩, h.stops, fun hq => absurd hq closed, h.abandoned⟩

theorem Watched.turn (h : Watched p) : Watched (p.turn batchSize) := by
  rcases p.turn_cases batchSize with ⟨-, heq⟩ | ⟨-, heq⟩ | ⟨hempty, heq⟩
  · rw [heq]
    refine ⟨fun _ => .inr rfl, ?_, ?_, ?_⟩
    · simpa using h.stops
    · intro hstopped hp
      have hp : p.pending ≠ [] := by
        rintro hempty
        simp [hempty] at hp
      simpa using h.current (by simpa using hstopped) hp
    · simpa using h.abandoned
  · rw [heq]
    exact ⟨fun hp => absurd rfl hp, h.stops, fun _ hp => absurd rfl hp, h.abandoned⟩
  · rw [heq]
    exact ⟨fun hp => absurd hempty hp, h.stops, fun _ hp => absurd hempty hp, h.abandoned⟩

theorem Watched.stop (h : Watched p) (hslip : ¬ Slip batchSize maxPending p .stop) :
    Watched p.stop := by
  unfold Publisher.stop
  rcases Publisher.startDraining_cases { p with stopped := true } with
    ⟨hidle, heq⟩ | ⟨hdraining, heq⟩
  · -- no earlier shutdown is waiting: its loop would be running
    rw [heq]
    refine ⟨fun _ => .inr rfl, fun _ _ => rfl, ?_, fun _ => rfl⟩
    intro _ hp drain hdrain
    rcases List.mem_append.mp hdrain with hold | hnew
    · have hrunning := h.running_of_stopped (h.stops drain hold) hp
      rw [show p.draining = .idle from hidle] at hrunning
      cases hrunning
    · exact List.mem_singleton.mp hnew
  · rw [heq]
    refine ⟨fun hp => .inr ?_, fun _ _ => rfl, ?_, fun _ => rfl⟩
    · show p.draining.isRunning = true
      cases hd : p.draining with
      | idle => exact absurd hd hdraining
      | starting => rfl
      | sending batch => rfl
      | ended => exact absurd ⟨hd, hp⟩ hslip
    · intro _ hp drain hdrain
      rcases List.mem_append.mp hdrain with hold | hnew
      · exact h.current (h.stops drain hold) hp drain hold
      · exact List.mem_singleton.mp hnew

/-- **The step lemma**: without a slip no event in the buffer is forgotten. -/
theorem Watched.next (h : Watched p) (hs : p.next batchSize maxPending e = some q)
    (hslip : ¬ Slip batchSize maxPending p e) : Watched q := by
  cases e with
  | publish event =>
    cases hs
    exact h.publish hslip
  | timerFires =>
    simp only [Publisher.next] at hs
    split_ifs at hs with hfires
    cases hs
    rcases Publisher.startDraining_cases { p with flushTimer := false } with
      ⟨hidle, heq⟩ | ⟨hdraining, heq⟩
    · rw [heq]
      refine ⟨fun _ => .inr rfl, h.stops, ?_, h.abandoned⟩
      intro hstopped hp
      have hrunning := h.running_of_stopped hstopped hp
      rw [show p.draining = .idle from hidle] at hrunning
      cases hrunning
    · rw [heq]
      refine ⟨fun _ => .inr ?_, h.stops, h.current, h.abandoned⟩
      show p.draining.isRunning = true
      have hquiet := hfires.2
      cases hd : p.draining with
      | idle => exact absurd hd hdraining
      | sending batch => rfl
      | starting => simp [hd, Drain.isQuiet] at hquiet
      | ended => simp [hd, Drain.isQuiet] at hquiet
  | begins =>
    simp only [Publisher.next] at hs
    split at hs
    · cases hs
      exact h.turn
    · cases hs
  | settles failed =>
    simp only [Publisher.next] at hs
    split at hs
    · cases hs
      exact Watched.turn (h.of_eq rfl rfl rfl rfl rfl (fun _ => id) h.abandoned)
    · cases hs
  | resets =>
    simp only [Publisher.next] at hs
    split at hs
    · rename_i hended
      cases hs
      refine ⟨fun hp => ?_, h.stops, ?_, h.abandoned⟩
      · rcases h.buffer hp with htimer | hrunning
        · exact .inl htimer
        · rw [hended] at hrunning
          cases hrunning
      · intro hstopped hp
        have hrunning := h.running_of_stopped hstopped hp
        rw [hended] at hrunning
        cases hrunning
    · cases hs
  | stop =>
    cases hs
    exact h.stop hslip
  | stopReturns drain =>
    simp only [Publisher.next] at hs
    split_ifs at hs
    cases hs
    refine h.of_eq (by simp) (by simp) (by simp) (by simp) (by simp) ?_ (by simpa using h.abandoned)
    intro d hd
    exact List.mem_of_mem_erase (by simpa using hd)
  | stopExpires drain =>
    simp only [Publisher.next] at hs
    split_ifs at hs with hexpires
    cases hs
    refine h.of_eq (by simp) (by simp) (by simp) (by simp) (by simp) ?_ fun _ =>
      h.stops drain hexpires.1
    intro d hd
    exact List.mem_of_mem_erase (by simpa using hd)

/-- A shutdown that returns before its deadline leaves an empty buffer. -/
theorem Watched.pending_of_stopReturns {drain : ℕ} (h : Watched p)
    (hs : p.next batchSize maxPending (.stopReturns drain) = some q) : q.pending = [] := by
  simp only [Publisher.next] at hs
  split_ifs at hs with hreturns
  cases hs
  rw [Publisher.reportDropped_pending]
  by_contra hp
  have hstopped := h.stops drain hreturns.1
  have hrunning := h.running_of_stopped hstopped hp
  have hcurrent := h.current hstopped hp drain hreturns.1
  -- the loop that was waited for is the one that runs, so it has not been reset
  have hreset := hreturns.2
  rw [Publisher.hasReset, hcurrent] at hreset
  cases hd : p.draining <;> simp_all [Drain.isRunning]

/-! ## Runs of a publisher -/

theorem Conserved.run (h : (publisher batchSize maxPending).Run (.initial : Publisher ε) es p) :
    Conserved p :=
  h.history_invariant (I := fun _ => Conserved) ⟨rfl, fun _ => rfl⟩ fun hp hs => hp.next hs

theorem turn_abandoned : (p.turn batchSize).abandoned = p.abandoned := by
  rcases p.turn_cases batchSize with ⟨-, heq⟩ | ⟨-, heq⟩ | ⟨-, heq⟩ <;> rw [heq]
  exact Publisher.reportDropped_abandoned _

theorem startDraining_abandoned : p.startDraining.abandoned = p.abandoned := by
  rcases p.startDraining_cases with ⟨-, heq⟩ | ⟨-, heq⟩ <;> rw [heq]

/-- Only the deadline of a shutdown makes the publisher give up. -/
theorem abandoned_next (hs : p.next batchSize maxPending e = some q) :
    q.abandoned = p.abandoned ∨ ∃ drain, e = .stopExpires drain := by
  cases e with
  | publish event =>
    cases hs
    left
    unfold Publisher.publish
    split_ifs
    · rfl
    · rfl
    · dsimp only
      split_ifs
      · exact startDraining_abandoned
      · rfl
  | timerFires =>
    simp only [Publisher.next] at hs
    split_ifs at hs
    cases hs
    exact .inl startDraining_abandoned
  | begins =>
    simp only [Publisher.next] at hs
    split at hs
    · cases hs
      exact .inl turn_abandoned
    · cases hs
  | settles failed =>
    simp only [Publisher.next] at hs
    split at hs
    · cases hs
      exact .inl turn_abandoned
    · cases hs
  | resets =>
    simp only [Publisher.next] at hs
    split at hs
    · cases hs
      exact .inl rfl
    · cases hs
  | stop =>
    cases hs
    exact .inl startDraining_abandoned
  | stopReturns drain =>
    simp only [Publisher.next] at hs
    split_ifs at hs
    cases hs
    exact .inl (Publisher.reportDropped_abandoned _)
  | stopExpires drain => exact .inr ⟨drain, rfl⟩

/-- Events are discarded only where the deadline of a shutdown has passed. -/
theorem stopExpires_of_abandoned
    (h : (publisher batchSize maxPending).Run (.initial : Publisher ε) es p)
    (habandoned : p.abandoned = true) : ∃ drain, .stopExpires drain ∈ es := by
  revert habandoned
  refine h.history_invariant
    (I := fun es p => p.abandoned = true → ∃ drain, .stopExpires drain ∈ es) ?_ ?_
  · intro hfalse
    cases hfalse
  · intro fs p e q ih hs hq
    rcases abandoned_next hs with hsame | ⟨drain, rfl⟩
    · obtain ⟨drain, hdrain⟩ := ih (hsame.symm.trans hq)
      exact ⟨drain, List.mem_append_left _ hdrain⟩
    · exact ⟨drain, List.mem_append_right _ (List.mem_singleton.mpr rfl)⟩

/-- A run without a slip. -/
abbrev Steady (batchSize maxPending : ℕ) : Transition.System (Publisher ε) (Event ε) :=
  (publisher batchSize maxPending).restrict fun p e _ => ¬ Slip batchSize maxPending p e

theorem Watched.run (h : (Steady batchSize maxPending).Run (.initial : Publisher ε) es p) :
    Watched p :=
  h.history_invariant (I := fun _ => Watched) .initial fun hp hs => hp.next hs.1 hs.2

/-- **What the publisher delivers.** The accepted events are handed over in the order in which they
were published, each once, and are otherwise still in the buffer, or discarded by a shutdown whose
deadline has passed. Along a run without a slip a buffer with events has a timer or a running loop
until shutdown begins, and a shutdown that returns before its deadline leaves the buffer empty. -/
theorem publisher_run
    (h : (publisher batchSize maxPending).Run (.initial : Publisher ε) es p) :
    p.accepted = p.handed.flatten ++ p.discarded ++ p.pending ∧
    (p.discarded ≠ [] → ∃ drain, .stopExpires drain ∈ es) ∧
    ((Steady batchSize maxPending).Run .initial es p →
      (p.pending ≠ [] → p.stopped = false →
        p.flushTimer = true ∨ p.draining.isRunning = true) ∧
      ∀ fs drain, es = fs ++ [.stopReturns drain] → p.pending = []) := by
  have hconserved := Conserved.run h
  refine ⟨hconserved.order, ?_, fun hsteady => ⟨?_, ?_⟩⟩
  · intro hdiscarded
    apply stopExpires_of_abandoned h
    by_contra hnot
    exact hdiscarded (hconserved.discarded (by simpa using hnot))
  · intro hp _
    rcases (Watched.run hsteady).buffer hp with ⟨-, htimer⟩ | hrunning
    · exact .inl htimer
    · exact .inr hrunning
  · rintro fs drain rfl
    obtain ⟨q, hrun, hstep⟩ := hsteady.exists_last
    exact (Watched.run hrun).pending_of_stopReturns hstep.1

/-- An event delivered, and then a shutdown that finds the buffer empty. -/
theorem publisher_run_steady :
    ∃ p : Publisher ℕ, p.handed = [[7]] ∧ p.accepted = p.handed.flatten ∧ p.pending = [] := by
  obtain ⟨p, run, hhanded⟩ : ∃ p : Publisher ℕ, (Steady 1 10).Run .initial
      ([.publish 7, .begins, .settles false, .resets, .stop, .begins, .resets] ++
        [.stopReturns 2]) p ∧ p.handed = [[7]] := by
    refine ⟨_, .restrict_cons rfl ?_ <| .restrict_cons rfl (fun h => h.2) <|
      .restrict_cons rfl (fun h => h.2) <| .restrict_cons rfl (fun h => h.2) <|
      .restrict_cons rfl ?_ <| .restrict_cons rfl (fun h => h.2) <|
      .restrict_cons rfl (fun h => h.2) <| .restrict_cons rfl (fun h => h.2) .nil, rfl⟩
    · exact fun h => nomatch h.1
    · exact fun h => nomatch h.1
  obtain ⟨horder, hexpires, hsteady⟩ := publisher_run run.of_restrict
  have hempty : p.pending = [] := (hsteady run).2 _ 2 rfl
  refine ⟨p, hhanded, ?_, hempty⟩
  have hdiscarded : p.discarded = [] := by
    by_contra hne
    obtain ⟨drain, hdrain⟩ := hexpires hne
    simp at hdrain
  simpa [hempty, hdiscarded] using horder

/-- **Events that are not delivered.** After the deadline of a shutdown an event is discarded. After
a slip an event stays in the buffer of an open publisher, with neither a timer nor a running loop,
or in that of a publisher whose shutdown has returned before its deadline. -/
theorem not_delivered :
    (∃ p : Publisher ℕ, (publisher 1 10).Run .initial
      [.publish 7, .publish 8, .begins, .stop, .stopExpires 1, .settles true] p ∧
      p.accepted = [7, 8] ∧ p.handed = [[7]] ∧ p.pending = []) ∧
    (∃ p : Publisher ℕ, (publisher 1 10).Run .initial
      [.publish 7, .begins, .settles false, .publish 8, .resets] p ∧
      p.pending = [8] ∧ p.stopped = false ∧ p.flushTimer = false ∧ p.draining = .idle) ∧
    (∃ p : Publisher ℕ, (publisher 2 10).Run .initial
      [.publish 7, .timerFires, .begins, .settles false, .publish 8, .stop, .resets,
        .stopReturns 1] p ∧ p.pending = [8]) := by
  refine ⟨⟨_, Transition.System.run_of_follow id rfl, rfl, rfl, rfl⟩,
    ⟨_, Transition.System.run_of_follow id rfl, rfl, rfl, rfl, rfl⟩,
    ⟨_, Transition.System.run_of_follow id rfl, rfl⟩⟩

end N8n.LifecycleEvents
