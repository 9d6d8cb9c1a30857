import N8n.Concurrency.ConcurrencyQueue
import N8n.Foundations.Transition
import Mathlib.Logic.Function.Basic

/-!
# Concurrency control

The service keeps one concurrency queue for production executions and one for evaluations. The
limit on evaluations may come from the license, so that queue is created at the first use.

## Main definitions

* `ConcurrencyControlService`: the limits and the queues
* `throttle`, `release`, `remove`, `removeAll`: what the service does with an execution
* `control`: the service as a transition system
* `Respected`: a step after which every limit holds
* `Alone`: a step that removes no execution beside which another one waits

## Main results

* `Inv.next`: every call keeps the accounts of every queue
* `respected_iff_alone`: the limits hold along a run exactly when no step removes an execution
  beside which another one waits
* `not_respected_removeAll`: a run in which the removal of all waiting executions breaks a limit
-/

namespace N8n.Concurrency

open ConcurrencyQueue

/-! ## Limits -/

inductive WorkflowExecuteMode
  | cli | error | integrated | internal | manual | retry | trigger | webhook | evaluation | chat
  | agent
deriving DecidableEq, Repr

inductive ConcurrencyQueueType
  | production
  | evaluation
deriving DecidableEq, Repr

/-- The configuration of executions, whether the limit on evaluations was set in the environment,
and what the license says. -/
structure Config where
  productionLimit : ℤ
  evaluationLimit : ℤ
  evaluationLimitSet : Bool
  /-- The mode of executions is `queue`. -/
  queueMode : Bool
  /-- The number of `quota:evaluations:concurrencyLimit`, if it is one. -/
  quota : Option ℤ
  planName : String
deriving Repr

def normaliseLimit (limit : ℤ) : Except String ℤ :=
  if limit = 0 then .error "Concurrency limit set to invalid value"
  else .ok (if limit < -1 then -1 else limit)

def evaluationTierDefault : String → ℤ
  | "Community" => 1
  | "Pro" => 1
  | "Business" => 3
  | "Enterprise" => 5
  | _ => 1

def readLicenseQuota (config : Config) : Option ℤ :=
  match config.quota with
  | none => none
  | some raw => if raw = 0 then none else some raw

def resolveEvaluationConcurrencyLimit (config : Config) : ℤ :=
  if config.evaluationLimitSet then config.evaluationLimit
  else match readLicenseQuota config with
    | some fromLicense => fromLicense
    | none => evaluationTierDefault config.planName

/-! ## The service -/

structure ConcurrencyControlService where
  isEnabled : Bool
  limits : ConcurrencyQueueType → ℤ
  queues : ConcurrencyQueueType → Option ConcurrencyQueue
  evalQueueResolved : Bool

namespace ConcurrencyControlService

open ConcurrencyQueueType

/-- The queue of a limit, if the limit is positive. -/
def queueFor (normalised : ℤ) : Option ConcurrencyQueue :=
  if 0 < normalised then some (.new normalised) else none

def construct (config : Config) : Except String ConcurrencyControlService := do
  let normalisedProduction ← normaliseLimit config.productionLimit
  let normalisedEvaluation ← normaliseLimit config.evaluationLimit
  let limits
    | production => normalisedProduction
    | evaluation => normalisedEvaluation
  if config.queueMode then
    return ⟨false, limits, fun _ => none, false⟩
  return {
    isEnabled := 0 < normalisedProduction ∨ 0 < normalisedEvaluation
    limits
    queues := fun type => queueFor (limits type)
    evalQueueResolved := 0 < normalisedEvaluation }

def ensureEvalQueueResolved (config : Config) (service : ConcurrencyControlService) :
    ConcurrencyControlService × Except String Unit :=
  if service.evalQueueResolved then (service, .ok ())
  else
    let service := { service with evalQueueResolved := true }
    if config.queueMode then (service, .ok ())
    else match normaliseLimit (resolveEvaluationConcurrencyLimit config) with
      | .error e => (service, .error e)
      | .ok normalised =>
        let limits := Function.update service.limits evaluation normalised
        if 0 < normalised then
          ({ service with
              limits
              queues := Function.update service.queues evaluation (some (.new normalised))
              isEnabled := true }, .ok ())
        else ({ service with limits }, .ok ())

/-- The queue of a mode; some modes have none. -/
def getQueue : WorkflowExecuteMode → Except String (Option ConcurrencyQueueType)
  | .error | .integrated | .cli | .internal | .manual | .retry => .ok none
  | .webhook | .trigger | .chat => .ok (some production)
  | .evaluation => .ok (some evaluation)
  | .agent => .error "Unknown execution mode"

/-- Every operation on an evaluation resolves the queue of evaluations first. -/
def resolveFor (config : Config) (mode : WorkflowExecuteMode)
    (service : ConcurrencyControlService) : ConcurrencyControlService × Except String Unit :=
  if mode = .evaluation then service.ensureEvalQueueResolved config else (service, .ok ())

def onQueue (config : Config) (operation : ConcurrencyQueue → ConcurrencyQueue)
    (mode : WorkflowExecuteMode) (service : ConcurrencyControlService) :
    ConcurrencyControlService × Except String Unit :=
  match service.resolveFor config mode with
  | (service, .error e) => (service, .error e)
  | (service, .ok ()) =>
    if service.isEnabled then
      match getQueue mode with
      | .error e => (service, .error e)
      | .ok none => (service, .ok ())
      | .ok (some type) =>
        match service.queues type with
        | none => (service, .ok ())
        | some queue =>
          ({ service with queues := Function.update service.queues type (some (operation queue)) },
            .ok ())
    else (service, .ok ())

/-- Block or let through an execution. -/
def throttle (config : Config) (mode : WorkflowExecuteMode) (executionId : String) :
    ConcurrencyControlService → ConcurrencyControlService × Except String Unit :=
  onQueue config (fun queue => queue.enqueue executionId) mode

/-- Release capacity back so the next execution in the queue can proceed. -/
def release (config : Config) (mode : WorkflowExecuteMode) :
    ConcurrencyControlService → ConcurrencyControlService × Except String Unit :=
  onQueue config ConcurrencyQueue.dequeue mode

/-- Remove an execution from the queue, releasing capacity back. -/
def remove (config : Config) (mode : WorkflowExecuteMode) (executionId : String) :
    ConcurrencyControlService → ConcurrencyControlService × Except String Unit :=
  onQueue config (fun queue => queue.remove executionId) mode

/-- Empty every queue. -/
def removeAll (service : ConcurrencyControlService) : ConcurrencyControlService :=
  if service.isEnabled then
    { service with queues := fun type => (service.queues type).map ConcurrencyQueue.removeAll }
  else service

/-! ## What an operation does -/

/-- A service whose queues are all in use: the queue of evaluations exists only once it is
resolved, and no queue is bypassed. -/
structure Ready (service : ConcurrencyControlService) : Prop where
  enabled : ∀ type queue, service.queues type = some queue → service.isEnabled = true
  unresolved : service.evalQueueResolved = false → service.queues evaluation = none

section Ready

variable {config : Config} {service : ConcurrencyControlService} {mode : WorkflowExecuteMode}

theorem ready_construct (h : construct config = .ok service) : Ready service := by
  unfold construct at h
  cases hp : normaliseLimit config.productionLimit with
  | error e => simp [hp, bind, Except.bind] at h
  | ok production =>
    cases he : normaliseLimit config.evaluationLimit with
    | error e => simp [hp, he, bind, Except.bind] at h
    | ok evaluation =>
      simp only [hp, he, bind, Except.bind, pure, Except.pure] at h
      split_ifs at h with hq
      · cases h
        exact ⟨fun type queue hsome => (Option.some_ne_none queue hsome.symm).elim, fun _ => rfl⟩
      · cases h
        refine ⟨?_, ?_⟩
        · intro type queue hsome
          cases type <;> simp only [queueFor, Option.ite_none_right_eq_some] at hsome <;>
            simp [hsome.1]
        · intro hunresolved
          simpa [queueFor] using hunresolved

/-- Resolving a queue creates the queue of evaluations or leaves the queues as they are. -/
theorem resolveFor_cases (h : Ready service) :
    ((service.resolveFor config mode).1.queues = service.queues ∧
      ∀ type queue, service.queues type = some queue →
        (service.resolveFor config mode).1.limits type = service.limits type) ∨
    ∃ normalised, 0 < normalised ∧ service.queues evaluation = none ∧
      (service.resolveFor config mode).1.queues =
        Function.update service.queues evaluation (some (.new normalised)) ∧
      (service.resolveFor config mode).1.limits =
        Function.update service.limits evaluation normalised := by
  unfold resolveFor ensureEvalQueueResolved
  have hkept : service.evalQueueResolved = false → ∀ normalised type queue,
      service.queues type = some queue →
        Function.update service.limits evaluation normalised type = service.limits type := by
    intro hnew normalised type queue hsome
    rw [Function.update_of_ne]
    rintro rfl
    rw [h.unresolved hnew] at hsome
    cases hsome
  split_ifs with hmode hnew hq
  · exact .inl ⟨rfl, fun _ _ _ => rfl⟩
  · exact .inl ⟨rfl, fun _ _ _ => rfl⟩
  · split
    · exact .inl ⟨rfl, fun _ _ _ => rfl⟩
    · rename_i normalised hnormalised
      split_ifs with hpos
      · exact .inr ⟨normalised, hpos, h.unresolved (by simpa using hnew), rfl, rfl⟩
      · exact .inl ⟨rfl, hkept (by simpa using hnew) normalised⟩
  · exact .inl ⟨rfl, fun _ _ _ => rfl⟩

theorem Ready.resolveFor (h : Ready service) : Ready (service.resolveFor config mode).1 := by
  unfold ConcurrencyControlService.resolveFor ensureEvalQueueResolved
  split_ifs with hmode hnew hq
  · exact h
  · exact ⟨h.enabled, fun hf => by cases hf⟩
  · split
    · exact ⟨h.enabled, fun hf => by cases hf⟩
    · split_ifs
      · exact ⟨fun _ _ _ => rfl, fun hf => by cases hf⟩
      · exact ⟨h.enabled, fun hf => by cases hf⟩
  · exact h

/-- Only the resolution of the queue of evaluations fails, and then there is none. -/
theorem queues_of_resolveFor_error (h : Ready service) {e : String}
    (he : (service.resolveFor config mode).2 = .error e) :
    mode = .evaluation ∧ (service.resolveFor config mode).1.queues evaluation = none := by
  unfold ConcurrencyControlService.resolveFor ensureEvalQueueResolved at he ⊢
  split_ifs at he ⊢ with hmode hnew hq
  split at he
  · exact ⟨hmode, h.unresolved (by simpa using hnew)⟩
  · split_ifs at he

/-- **What an operation does**: it is applied to the queue of its mode, and to no other. -/
theorem queues_onQueue (h : Ready service) (operation : ConcurrencyQueue → ConcurrencyQueue)
    (type : ConcurrencyQueueType) :
    (service.onQueue config operation mode).1.queues type =
      if getQueue mode = .ok (some type) then
        ((service.resolveFor config mode).1.queues type).map operation
      else (service.resolveFor config mode).1.queues type := by
  have hready := @Ready.resolveFor config service mode h
  have herror := @queues_of_resolveFor_error config service mode h
  unfold onQueue
  generalize service.resolveFor config mode = resolved at hready herror ⊢
  obtain ⟨service', result⟩ := resolved
  cases result with
  | error e =>
    obtain ⟨rfl, hnone⟩ := herror rfl
    change service'.queues evaluation = none at hnone
    cases type with
    | production => rfl
    | evaluation => simp [getQueue, hnone]
  | ok =>
    by_cases henabled : service'.isEnabled = true
    · cases hmode : getQueue mode with
      | error e => simp [henabled]
      | ok found =>
        cases found with
        | none => simp [henabled]
        | some type' =>
          cases hqueue : service'.queues type' with
          | none =>
            by_cases heq : type' = type
            · subst heq
              simp [henabled, hqueue]
            · simp [henabled, hqueue, heq]
          | some queue =>
            by_cases heq : type' = type
            · subst heq
              simp [henabled, hqueue]
            · simp [henabled, hqueue, heq, Function.update_of_ne (Ne.symm heq)]
    · have hnone : service'.queues type = none := by
        cases hqueue : service'.queues type with
        | none => rfl
        | some queue => exact absurd (hready.enabled type queue hqueue) henabled
      simp [henabled, hnone]

/-- An operation leaves everything but the queues as their resolution left it. -/
theorem onQueue_rest (operation : ConcurrencyQueue → ConcurrencyQueue) :
    ∃ queues, (service.onQueue config operation mode).1 =
      { (service.resolveFor config mode).1 with queues } := by
  unfold onQueue
  split
  · rename_i hresolve
    exact ⟨_, by rw [hresolve]⟩
  · rename_i hresolve
    rw [hresolve]
    split_ifs
    · split
      · exact ⟨_, rfl⟩
      · exact ⟨_, rfl⟩
      · split <;> exact ⟨_, rfl⟩
    · exact ⟨_, rfl⟩

end Ready

end ConcurrencyControlService

/-! ## Runs -/

open ConcurrencyControlService

/-- The service, and how many of the executions that each queue let through have ended. -/
structure State where
  service : ConcurrencyControlService
  released : ConcurrencyQueueType → ℕ

inductive Event
  | throttle (mode : WorkflowExecuteMode) (executionId : String)
  | release (mode : WorkflowExecuteMode)
  | remove (mode : WorkflowExecuteMode) (executionId : String)
  | removeAll
deriving DecidableEq, Repr

/-- One call. A call of `release` follows the end of an execution that was let through. -/
def State.next (config : Config) (s : State) : Event → Option State
  | .throttle mode executionId =>
    some { s with service := (s.service.throttle config mode executionId).1 }
  | .release mode =>
    let service := (s.service.release config mode).1
    match getQueue mode with
    | .ok (some type) =>
      match (s.service.resolveFor config mode).1.queues type with
      | some queue =>
        if s.released type < queue.resolved.length then
          some ⟨service, Function.update s.released type (s.released type + 1)⟩
        else none
      | none => some { s with service }
    | _ => some { s with service }
  | .remove mode executionId =>
    some { s with service := (s.service.remove config mode executionId).1 }
  | .removeAll => some { s with service := s.service.removeAll }

def control (config : Config) : Transition.System State Event where
  init s := construct config = .ok s.service ∧ s.released = fun _ => 0
  step s e t := s.next config e = some t

def Event.operation (e : Event) (type : ConcurrencyQueueType) (queue : ConcurrencyQueue) :
    ConcurrencyQueue :=
  match e with
  | .throttle mode executionId =>
    if getQueue mode = .ok (some type) then queue.enqueue executionId else queue
  | .release mode => if getQueue mode = .ok (some type) then queue.dequeue else queue
  | .remove mode executionId =>
    if getQueue mode = .ok (some type) then queue.remove executionId else queue
  | .removeAll => queue.removeAll

/-- How many executions of a type a call ends. -/
def Event.ended (e : Event) (type : ConcurrencyQueueType) : ℕ :=
  match e with
  | .release mode => if getQueue mode = .ok (some type) then 1 else 0
  | _ => 0

/-- The accounts of every queue hold; a queue that does not exist let no execution through. -/
structure Inv (s : State) : Prop where
  ready : Ready s.service
  fresh : ∀ type, s.service.queues type = none → s.released type = 0
  accounted : ∀ type queue, s.service.queues type = some queue →
    ConcurrencyQueue.Accounted (s.service.limits type) (s.released type) queue

/-- A call acts on a state in which the queue of its mode is resolved. -/
structure Acts (e : Event) (m t : State) : Prop where
  ready : Ready t.service
  limits : t.service.limits = m.service.limits
  queues : ∀ type, t.service.queues type = (m.service.queues type).map (e.operation type)
  ended : ∀ type queue, m.service.queues type = some queue →
    t.released type = m.released type + e.ended type ∧
      (e.ended type ≠ 0 → m.released type < queue.resolved.length)
  fresh : ∀ type, m.service.queues type = none → t.released type = m.released type

section Steps

variable {config : Config} {s t : State} {e : Event}

/-- What one call of a service does on the queues, once they are resolved. -/
theorem acts_onQueue (h : Ready s.service) {mode : WorkflowExecuteMode}
    {operation : ConcurrencyQueue → ConcurrencyQueue}
    (ho : ∀ type queue, e.operation type queue =
      if getQueue mode = .ok (some type) then operation queue else queue)
    (hservice : t.service = (s.service.onQueue config operation mode).1)
    (hended : ∀ type queue, (s.service.resolveFor config mode).1.queues type = some queue →
      t.released type = s.released type + e.ended type ∧
        (e.ended type ≠ 0 → s.released type < queue.resolved.length))
    (hfresh : ∀ type, (s.service.resolveFor config mode).1.queues type = none →
      t.released type = s.released type) :
    Acts e ⟨(s.service.resolveFor config mode).1, s.released⟩ t := by
  obtain ⟨queues, hrest⟩ := @onQueue_rest config s.service mode operation
  have hqueues : ∀ type, t.service.queues type =
      ((s.service.resolveFor config mode).1.queues type).map (e.operation type) := by
    intro type
    rw [hservice, queues_onQueue h]
    split_ifs with hmode
    · congr 1
      funext queue
      rw [ho, if_pos hmode]
    · rw [show e.operation type = id from funext fun queue => by rw [ho, if_neg hmode, id],
        Option.map_id, id]
  have hready := @Ready.resolveFor config s.service mode h
  refine ⟨⟨?_, ?_⟩, ?_, hqueues, hended, hfresh⟩
  · intro type queue hsome
    rw [hqueues] at hsome
    obtain ⟨old, hold, -⟩ := Option.map_eq_some_iff.mp hsome
    rw [hservice, hrest]
    exact hready.enabled type old hold
  · intro hunresolved
    rw [hservice, hrest] at hunresolved
    rw [hqueues, hready.unresolved hunresolved, Option.map_none]
  · rw [hservice, hrest]

/-- **What one step does**: the queue of a mode is resolved, then the call acts on it. -/
theorem next_spec (h : Ready s.service) (hn : s.next config e = some t) :
    ∃ m, (m = s ∨ ∃ mode, m = ⟨(s.service.resolveFor config mode).1, s.released⟩) ∧
      Acts e m t := by
  cases e with
  | throttle mode executionId =>
    cases hn
    exact ⟨_, .inr ⟨mode, rfl⟩, acts_onQueue h (fun _ _ => rfl) rfl
      (fun _ _ _ => ⟨rfl, fun hne => absurd rfl hne⟩) fun _ _ => rfl⟩
  | remove mode executionId =>
    cases hn
    exact ⟨_, .inr ⟨mode, rfl⟩, acts_onQueue h (fun _ _ => rfl) rfl
      (fun _ _ _ => ⟨rfl, fun hne => absurd rfl hne⟩) fun _ _ => rfl⟩
  | release mode =>
    refine ⟨_, .inr ⟨mode, rfl⟩, ?_⟩
    simp only [State.next] at hn
    split at hn
    · rename_i type hmode
      split at hn
      · rename_i queue hqueue
        split_ifs at hn with hlt
        cases hn
        refine acts_onQueue h (fun _ _ => rfl) rfl ?_ ?_
        · intro other queue' hother
          by_cases heq : other = type
          · subst heq
            rw [hqueue] at hother
            cases hother
            simp [Event.ended, hmode, hlt]
          · simp [Event.ended, hmode, Ne.symm heq, Function.update_of_ne heq]
        · intro other hother
          have heq : other ≠ type := by
            rintro rfl
            rw [hqueue] at hother
            cases hother
          simp [Function.update_of_ne heq]
      · rename_i hqueue
        cases hn
        refine acts_onQueue h (fun _ _ => rfl) rfl ?_ fun _ _ => rfl
        intro other queue hother
        have heq : type ≠ other := by
          rintro rfl
          rw [hqueue] at hother
          cases hother
        simp [Event.ended, hmode, heq]
    · rename_i hmode
      cases hn
      refine acts_onQueue h (fun _ _ => rfl) rfl ?_ fun _ _ => rfl
      intro other queue hother
      have hnone : getQueue mode ≠ .ok (some other) := hmode other
      simp [Event.ended, hnone]
  | removeAll =>
    cases hn
    refine ⟨s, .inl rfl, ?_⟩
    unfold ConcurrencyControlService.removeAll
    split_ifs with henabled
    · refine ⟨⟨?_, ?_⟩, rfl, fun _ => rfl, fun _ _ _ => ⟨rfl, fun hne => absurd rfl hne⟩,
        fun _ _ => rfl⟩
      · intro type queue hsome
        exact henabled
      · intro hunresolved
        simp [h.unresolved hunresolved]
    · have hnone : ∀ type, s.service.queues type = none := by
        intro type
        cases hqueue : s.service.queues type with
        | none => rfl
        | some queue => exact absurd (h.enabled type queue hqueue) henabled
      refine ⟨h, rfl, ?_, fun _ _ _ => ⟨rfl, fun hne => absurd rfl hne⟩, fun _ _ => rfl⟩
      intro type
      simp [hnone]

theorem Inv.resolve (h : Inv s) (mode : WorkflowExecuteMode) :
    Inv ⟨(s.service.resolveFor config mode).1, s.released⟩ := by
  refine ⟨h.ready.resolveFor, ?_, ?_⟩
  · intro type hnone
    rcases @resolveFor_cases config s.service mode h.ready with ⟨hq, -⟩ | ⟨_, -, hold, hq, -⟩
    · exact h.fresh type (hq ▸ hnone)
    · rw [hq] at hnone
      cases type with
      | production =>
        exact h.fresh _ (by simpa using hnone)
      | evaluation => simp at hnone
  · intro type queue hsome
    rcases @resolveFor_cases config s.service mode h.ready with ⟨hq, hl⟩ | ⟨_, -, hold, hq, hl⟩
    · have hsome : s.service.queues type = some queue := hq ▸ hsome
      rw [hl type queue hsome]
      exact h.accounted type queue hsome
    · -- the queue of evaluations is new, and no evaluation was let through before
      rw [hq] at hsome
      rw [hl]
      cases type with
      | production =>
        simp at hsome ⊢
        exact h.accounted _ _ hsome
      | evaluation =>
        simp at hsome ⊢
        subst hsome
        rw [h.fresh _ hold]
        exact .new

theorem accounted_operation {limit : ℤ} {released : ℕ} {queue : ConcurrencyQueue}
    (type : ConcurrencyQueueType) (h : ConcurrencyQueue.Accounted limit released queue)
    (hr : e.ended type ≠ 0 → released < queue.resolved.length) :
    ConcurrencyQueue.Accounted limit (released + e.ended type) (e.operation type queue) := by
  cases e with
  | throttle mode executionId =>
    simp only [Event.operation, Event.ended, Nat.add_zero]
    split_ifs
    · exact h.enqueue executionId
    · exact h
  | release mode =>
    simp only [Event.operation, Event.ended] at hr ⊢
    split_ifs at hr ⊢ with hmode
    · exact h.dequeue (hr (by simp))
    · exact h
  | remove mode executionId =>
    simp only [Event.operation, Event.ended, Nat.add_zero]
    split_ifs
    · exact h.remove executionId
    · exact h
  | removeAll => exact h.removeAll

theorem Inv.acts {m : State} (h : Inv m) (ha : Acts e m t) : Inv t := by
  refine ⟨ha.ready, ?_, ?_⟩
  · intro type hnone
    rw [ha.queues, Option.map_eq_none_iff] at hnone
    rw [ha.fresh type hnone]
    exact h.fresh type hnone
  · intro type queue hsome
    rw [ha.queues] at hsome
    obtain ⟨old, hold, rfl⟩ := Option.map_eq_some_iff.mp hsome
    obtain ⟨hreleased, hended⟩ := ha.ended type old hold
    rw [ha.limits, hreleased]
    exact accounted_operation type (h.accounted type old hold) hended

/-- **The accounts of every queue** are kept by every call. -/
theorem Inv.next (h : Inv s) (hn : s.next config e = some t) : Inv t := by
  obtain ⟨m, rfl | ⟨mode, rfl⟩, ha⟩ := next_spec h.ready hn
  · exact h.acts ha
  · exact (h.resolve mode).acts ha

/-- The queues of a new service are empty, and their limits positive. -/
theorem queues_initial (h : (control config).init s) {type : ConcurrencyQueueType}
    {queue : ConcurrencyQueue} (hsome : s.service.queues type = some queue) :
    0 < s.service.limits type ∧ queue = .new (s.service.limits type) := by
  obtain ⟨hservice, -⟩ := h
  unfold construct at hservice
  cases hp : normaliseLimit config.productionLimit with
  | error e => simp [hp, bind, Except.bind] at hservice
  | ok production =>
    cases he : normaliseLimit config.evaluationLimit with
    | error e => simp [hp, he, bind, Except.bind] at hservice
    | ok evaluation =>
      simp only [hp, he, bind, Except.bind, pure, Except.pure] at hservice
      split_ifs at hservice with hq
      · rw [← Except.ok.inj hservice] at hsome
        cases hsome
      · rw [← Except.ok.inj hservice] at hsome ⊢
        simp only [queueFor, Option.ite_none_right_eq_some, Option.some.injEq] at hsome
        exact ⟨hsome.1, hsome.2.symm⟩

theorem inv_initial (h : (control config).init s) : Inv s := by
  refine ⟨ready_construct h.1, fun type _ => by rw [h.2], ?_⟩
  intro type queue hsome
  obtain ⟨-, rfl⟩ := queues_initial h hsome
  rw [h.2]
  exact .new

/-! ## The limit -/

def Event.Removes : Event → Prop
  | .remove _ _ => True
  | .removeAll => True
  | _ => False

/-- A step after which the limits hold: no queue has let more executions through than its limit
allows, executions wait only while that many run, they are let through in the order in which they
arrived, and a removal lets an execution through only where a slot is free. -/
structure Respected (s : State) (e : Event) (t : State) : Prop where
  limited : ∀ type queue, t.service.queues type = some queue →
    queue.running (t.released type) ≤ t.service.limits type
  waits : ∀ type queue, t.service.queues type = some queue → queue.queue ≠ [] →
    queue.running (t.released type) = t.service.limits type
  order : ∀ type queue, t.service.queues type = some queue → queue.promised.Pairwise (· < ·)
  removal : e.Removes → ∀ type queue queue', s.service.queues type = some queue →
    t.service.queues type = some queue' →
      queue'.resolved = queue.resolved ∨ queue.running (s.released type) < s.service.limits type

/-- No step removes a waiting execution beside which another one waits. -/
def Alone (s : State) : Event → Prop
  | .remove mode executionId => ∀ type queue, getQueue mode = .ok (some type) →
      s.service.queues type = some queue →
        executionId ∈ queue.queue.map QueueItem.executionId → queue.queue.length = 1
  | .removeAll => ∀ type queue, s.service.queues type = some queue → queue.queue.length ≤ 1
  | _ => True

/-- In a state every queue has let through as many executions as its limit allows, at most. -/
def Limited (s : State) : Prop :=
  ∀ type queue, s.service.queues type = some queue →
    queue.running (s.released type) ≤ s.service.limits type

/-- A queue that exists is not changed when the queue of a mode is resolved. -/
theorem resolveFor_of_some (h : Ready s.service) {mode : WorkflowExecuteMode}
    {type : ConcurrencyQueueType} {queue : ConcurrencyQueue}
    (hsome : s.service.queues type = some queue) :
    (s.service.resolveFor config mode).1.queues type = some queue ∧
      (s.service.resolveFor config mode).1.limits type = s.service.limits type := by
  rcases @resolveFor_cases config s.service mode h with ⟨hq, hl⟩ | ⟨_, -, hold, hq, hl⟩
  · exact ⟨hq ▸ hsome, hl type queue hsome⟩
  · have hne : type ≠ .evaluation := by
      rintro rfl
      rw [hold] at hsome
      cases hsome
    rw [hq, hl, Function.update_of_ne hne, Function.update_of_ne hne]
    exact ⟨hsome, rfl⟩

/-- A call applies its operation to the queues there are. -/
theorem queue_next (h : Ready s.service) (hn : s.next config e = some t)
    {type : ConcurrencyQueueType} {queue : ConcurrencyQueue}
    (hsome : s.service.queues type = some queue) :
    t.service.queues type = some (e.operation type queue) := by
  obtain ⟨m, rfl | ⟨mode, rfl⟩, ha⟩ := next_spec h hn
  · rw [ha.queues, hsome, Option.map_some]
  · rw [ha.queues, (resolveFor_of_some h hsome).1, Option.map_some]

theorem Limited.resolve (h : Inv s) (hl : Limited s) (mode : WorkflowExecuteMode) :
    Limited ⟨(s.service.resolveFor config mode).1, s.released⟩ := by
  intro type queue hsome
  change (s.service.resolveFor config mode).1.queues type = some queue at hsome
  cases hold : s.service.queues type with
  | some old =>
    obtain ⟨hq, hlimit⟩ := @resolveFor_of_some config s h.ready mode type old hold
    rw [hq] at hsome
    obtain rfl := Option.some.inj hsome
    exact hlimit ▸ hl type old hold
  | none =>
    have hzero := h.fresh type hold
    rcases @resolveFor_cases config s.service mode h.ready with ⟨hq, -⟩ | ⟨_, hpos, -, hq, hlimits⟩
    · rw [hq, hold] at hsome
      cases hsome
    · rw [hq] at hsome
      rw [hlimits]
      cases type with
      | production =>
        rw [Function.update_of_ne (by simp), hold] at hsome
        cases hsome
      | evaluation =>
        simp only [Function.update_self, Option.some.injEq] at hsome
        subst hsome
        simp only [running, new, hzero, Function.update_self]
        simp
        omega

/-- A removal resolves no promise exactly when no other execution waits. -/
theorem resolved_operation_iff (he : e.Removes) :
    (∀ type queue, s.service.queues type = some queue →
      (e.operation type queue).resolved = queue.resolved) ↔ Alone s e := by
  cases e with
  | throttle mode executionId => exact he.elim
  | release mode => exact he.elim
  | remove mode executionId =>
    refine forall₂_congr fun type queue => ?_
    by_cases hmode : getQueue mode = .ok (some type)
    · simp only [Event.operation, hmode, if_true, true_imp_iff]
      exact imp_congr_right fun _ => remove_resolved_iff queue executionId
    · simp [Event.operation, hmode]
  | removeAll =>
    refine forall₂_congr fun type queue => imp_congr_right fun _ => ?_
    exact removeAll_resolved_iff queue

/-- A call keeps the limit of a queue, unless it is a removal that lets an execution through. -/
theorem running_operation_le {limit : ℤ} {released : ℕ} {queue : ConcurrencyQueue}
    (type : ConcurrencyQueueType) (h : ConcurrencyQueue.Accounted limit released queue)
    (hl : queue.running released ≤ limit)
    (hremoval : e.Removes → (e.operation type queue).resolved = queue.resolved) :
    (e.operation type queue).running (released + e.ended type) ≤ limit := by
  cases e with
  | throttle mode executionId =>
    simp only [Event.operation, Event.ended, Nat.add_zero]
    split_ifs
    · exact h.running_enqueue executionId hl
    · exact hl
  | release mode =>
    simp only [Event.operation, Event.ended]
    split_ifs
    · exact running_dequeue hl
    · exact hl
  | remove mode executionId =>
    have heq := hremoval trivial
    rw [running, heq]
    exact hl
  | removeAll =>
    have heq := hremoval trivial
    rw [running, heq]
    exact hl

/-- Where executions wait, no slot is free: a removal there lets none through only if it acts on
an execution that waits alone. -/
theorem alone_of_respected (h : Inv s) (hn : s.next config e = some t) (hr : Respected s e t) :
    Alone s e := by
  by_cases he : e.Removes
  · rw [← resolved_operation_iff he]
    intro type queue hsome
    rcases hr.removal he type queue _ hsome (queue_next h.ready hn hsome) with heq | hfree
    · exact heq
    · have hnil : queue.queue = [] := by
        by_contra hne
        have := (h.accounted type queue hsome).waits hne
        omega
      cases e with
      | throttle mode executionId => exact he.elim
      | release mode => exact he.elim
      | remove mode executionId =>
        simp only [Event.operation]
        split_ifs
        · exact (remove_resolved_iff queue executionId).mpr (by simp [hnil])
        · rfl
      | removeAll => exact (removeAll_resolved_iff queue).mpr (by simp [hnil])
  · cases e with
    | throttle mode executionId => trivial
    | release mode => trivial
    | remove mode executionId => exact absurd trivial he
    | removeAll => exact absurd trivial he

/-- The queue of evaluations has no execution waiting when it is created. -/
theorem Alone.resolve (h : Ready s.service) (ha : Alone s e) (mode : WorkflowExecuteMode) :
    Alone ⟨(s.service.resolveFor config mode).1, s.released⟩ e := by
  have hold : ∀ type queue, (s.service.resolveFor config mode).1.queues type = some queue →
      s.service.queues type = some queue ∨ queue.queue = [] := by
    intro type queue hsome
    rcases @resolveFor_cases config s.service mode h with ⟨hq, -⟩ | ⟨_, -, -, hq, -⟩
    · exact .inl (hq ▸ hsome)
    · rw [hq] at hsome
      cases type with
      | production => exact .inl (by simpa using hsome)
      | evaluation =>
        simp only [Function.update_self, Option.some.injEq] at hsome
        exact .inr (hsome ▸ rfl)
  cases e with
  | throttle mode executionId => trivial
  | release mode => trivial
  | remove mode executionId =>
    intro type queue hmode hsome hmem
    rcases hold type queue hsome with hsome | hnil
    · exact ha type queue hmode hsome hmem
    · simp [hnil] at hmem
  | removeAll =>
    intro type queue hsome
    rcases hold type queue hsome with hsome | hnil
    · exact ha type queue hsome
    · simp [hnil]

theorem Limited.acts {m : State} (h : Inv m) (hl : Limited m) (hal : Alone m e)
    (ha : Acts e m t) : Limited t := by
  intro type queue hsome
  rw [ha.queues] at hsome
  obtain ⟨old, hold, rfl⟩ := Option.map_eq_some_iff.mp hsome
  rw [ha.limits, (ha.ended type old hold).1]
  refine running_operation_le type (h.accounted type old hold) (hl type old hold) ?_
  intro he
  exact (resolved_operation_iff he).mpr hal type old hold

theorem Limited.next (h : Inv s) (hl : Limited s) (hn : s.next config e = some t)
    (ha : Alone s e) : Limited t := by
  obtain ⟨m, rfl | ⟨mode, rfl⟩, hacts⟩ := next_spec h.ready hn
  · exact hl.acts h ha hacts
  · exact (hl.resolve h mode).acts (h.resolve mode) (ha.resolve h.ready mode) hacts

theorem respected_of_alone (h : Inv s) (hl : Limited s) (hn : s.next config e = some t)
    (ha : Alone s e) : Respected s e t := by
  have ht := h.next hn
  have hlt := hl.next h hn ha
  refine ⟨hlt, ?_, fun type queue hsome => (ht.accounted type queue hsome).order, ?_⟩
  · intro type queue hsome hne
    exact le_antisymm (hlt type queue hsome) ((ht.accounted type queue hsome).waits hne)
  · intro he type queue queue' hsome hsome'
    left
    rw [queue_next h.ready hn hsome] at hsome'
    cases hsome'
    exact (resolved_operation_iff he).mpr ha type queue hsome

theorem limited_initial (h : (control config).init s) : Limited s := by
  intro type queue hsome
  obtain ⟨hpos, rfl⟩ := queues_initial h hsome
  rw [h.2]
  simp only [running, new, List.length_nil]
  omega

/-- **The limits hold along a run exactly when** no step removes a waiting execution beside which
another one waits. -/
theorem respected_iff_alone {es : List Event} (h : (control config).init s) :
    ((control config).restrict Respected).Run s es t ↔
      ((control config).restrict fun s e _ => Alone s e).Run s es t := by
  refine Transition.System.Run.restrict_congr (I := fun s => Inv s ∧ Limited s)
    ⟨inv_initial h, limited_initial h⟩ ?_ ?_
  · intro u e v hu hn hr
    exact ⟨hu.1.next hn, hr.limited⟩
  · intro u e v hu hn
    exact ⟨alone_of_respected hu.1 hn, respected_of_alone hu.1 hu.2 hn⟩

end Steps

/-! ## Limit one -/

/-- At most one production execution runs. -/
def limitOne : Config := ⟨1, -1, false, false, none, "Community"⟩

def limitOneStart : State := ⟨(construct limitOne).toOption.get rfl, fun _ => 0⟩

theorem init_limitOneStart : (control limitOne).init limitOneStart := ⟨rfl, rfl⟩

/-- A removal beside which no execution waits lets none through. -/
theorem respected_iff_alone_limitOne :
    ∃ t, ((control limitOne).restrict Respected).Run limitOneStart
      [.throttle .webhook "a", .throttle .webhook "b", .remove .webhook "b"] t := by
  obtain ⟨t, h⟩ : ∃ t, ((control limitOne).restrict fun s e _ => Alone s e).Run limitOneStart
      [.throttle .webhook "a", .throttle .webhook "b", .remove .webhook "b"] t := by
    refine ⟨_, .restrict_cons rfl trivial (.restrict_cons rfl trivial
      (.restrict_cons rfl ?_ .nil))⟩
    intro type queue hmode hsome _
    obtain rfl : type = .production := by cases hmode; rfl
    cases hsome
    rfl
  exact ⟨t, (respected_iff_alone init_limitOneStart).mpr h⟩

/-- One execution runs and two wait, when all waiting executions are removed. -/
def crowd : List Event :=
  [.throttle .webhook "a", .throttle .webhook "b", .throttle .webhook "c", .removeAll]

def crowdEnd : State := (Transition.System.follow (State.next limitOne) crowd limitOneStart).get rfl

/-- The second of the waiting executions is let through beside the one that runs. -/
theorem not_respected_removeAll :
    (control limitOne).Run limitOneStart crowd crowdEnd ∧
    ¬ ∃ t, ((control limitOne).restrict Respected).Run limitOneStart crowd t := by
  constructor
  · exact Transition.System.run_of_follow id (Option.some_get _).symm
  · rintro ⟨t, h⟩
    have hend : t = crowdEnd := Option.some.inj
      ((Transition.System.follow_of_run id h.of_restrict).symm.trans (Option.some_get _).symm)
    have hlast : ((control limitOne).restrict Respected).Run limitOneStart
        (crowd.take 3 ++ [.removeAll]) t := h
    obtain ⟨u, -, -, hrespected⟩ := hlast.exists_last
    subst hend
    have := hrespected.limited .production _ rfl
    revert this
    decide

end N8n.Concurrency
