import N8n.Scaling.ScalingService

/-!
# Recovery from the queues

A recovery takes an execution for dangling when it was stored as in progress and none of the queues
that the process has opened had a job for it. This is right for an execution whose job was added
before the stored executions were read, to a queue that the process has opened: its job can only
finish after that. It is wrong for one that is about to be added, or is in a queue that only other
processes have opened.

## Main definitions

* `ScalingServices.IsLive`: an execution has a job, or will have one
* `ScalingServices.IsSafe`: no live execution is marked as crashed, and at most one chain of
  recovery timers is alive
* `ScalingServices.Slip`: executions are read that are about to be added, or whose queues are not
  open, or a chain of timers is started or stopped while a callback is under way
* `ScalingServices.Sound`: what the recoveries know, and the timers that are armed

## Main results

* `recovery_run`: runs without a slip are safe
* `not_safe`: an execution that is about to be added, one in the queue of another process, and a
  callback that survives the end of recovery
-/

namespace N8n.Scaling.Queues

namespace ScalingServices

variable {config : QueueRecoveryConfig} {t u : ScalingServices} {p c id : ℕ}
  {f : Execution → Execution} {j : ℕ}

/-! ## What is promised -/

/-- The job of an execution was added, or will never be. -/
def IsEnqueued (t : ScalingServices) (id : ℕ) : Prop :=
  t.executions[id]?.map Execution.enqueueing = some .finished

/-- An execution has a waiting or active job in some queue. -/
def HasJob (t : ScalingServices) (id : ℕ) : Prop :=
  ∃ job ∈ t.jobs, job.executionId = id ∧ job.isLive = true

/-- An execution has a job, or will have one. -/
def IsLive (t : ScalingServices) (id : ℕ) : Prop := ¬ t.IsEnqueued id ∨ t.HasJob id

def IsCrashed (t : ScalingServices) (id : ℕ) : Prop :=
  t.executions[id]?.map Execution.status = some .crashed

/-- No step changes a live execution to crashed. Every process has at most one chain of recovery
timers, and none after recovery was stopped. -/
structure IsSafe (config : QueueRecoveryConfig) (t : ScalingServices) : Prop where
  crash : ∀ e u id, t.next config e = some u → ¬ t.IsCrashed id → u.IsCrashed id → ¬ t.IsLive id
  chains : ∀ p, (t.instances p).chains ≤ 1
  stopped : ∀ p, (t.instances p).stopped = true → (t.instances p).chains = 0

/-- Executions are read that are about to be added, or that have jobs in queues that the process has
not opened. Or recovery is started while a chain of timers is alive, or stopped while a callback is
under way. -/
def Slip (t : ScalingServices) : Event → Prop
  | .find p _ ids => ∃ id ∈ ids, ¬ t.IsEnqueued id ∨
      ∃ job ∈ t.jobs, job.executionId = id ∧ job.isLive = true ∧
        job.queueName ∉ (t.instances p).queueNames
  | .queueSetUp p _ => (t.instances p).isLeader = true ∧
      ((t.instances p).chains ≠ 0 ∨ (t.instances p).stopped = true)
  | .takeover p => (t.instances p).chains ≠ 0
  | .stepdown p | .stop p => (t.instances p).recoveries ≠ []
  | .create | .addJob _ _ _ | .jobAdded _ | .jobNotAdded _ _ | .pickUp _ | .finishJob _
  | .setStatus _ _ | .setupQueue _ | .fire _ _ | .list _ _ | .crash _ _ | .fail _ _ => False

/-! ## The invariant -/

/-- What a recovery knows. The job of every stored execution is in a queue that is yet to be read,
or was found; the dangling ones have none. -/
def Knows (t : ScalingServices) (queueNames : List String) : Recovery → Prop
  | .finding => True
  | .listing ids i queued => ∀ id ∈ ids, t.IsEnqueued id ∧
      ∀ job ∈ t.jobs, job.executionId = id → job.isLive = true →
        id ∈ queued ∨ ∃ j, i ≤ j ∧ queueNames[j]? = some job.queueName
  | .crashing _ ids => ∀ id ∈ ids, ¬ t.IsLive id

/-- The timers of a process: one chain at most, and its timer is the one that was armed last. -/
structure Timed (p : Instance) : Prop where
  chains : p.chains ≤ 1
  armed : ∀ timer ∈ p.timers, p.timeout = some timer.id
  stopped : p.stopped = true → p.chains = 0

structure Sound (t : ScalingServices) : Prop where
  knows : ∀ p, ∀ recovery ∈ (t.instances p).recoveries,
    t.Knows (t.instances p).queueNames recovery
  timed : ∀ p, Timed (t.instances p)

theorem Sound.initial (isLeader : ℕ → Bool) : (initial isLeader).Sound where
  knows := nofun
  timed _ := ⟨Nat.zero_le 1, nofun, nofun⟩

/-- Executions stay enqueued, and have no jobs after that but those of before. -/
structure Enqueues (t u : ScalingServices) : Prop where
  enqueued : ∀ id, t.IsEnqueued id → u.IsEnqueued id
  jobs : ∀ job ∈ u.jobs, t.IsEnqueued job.executionId → job.isLive = true →
    ∃ job' ∈ t.jobs, job'.executionId = job.executionId ∧ job'.queueName = job.queueName ∧
      job'.isLive = true

theorem Enqueues.refl (t : ScalingServices) : Enqueues t t :=
  ⟨fun _ => id, fun job hjob _ hlive => ⟨job, hjob, rfl, rfl, hlive⟩⟩

theorem Enqueues.not_isLive (h : Enqueues t u) (hlive : ¬ t.IsLive id) : ¬ u.IsLive id := by
  have hid : t.IsEnqueued id := by
    by_contra hnot
    exact hlive (.inl hnot)
  rintro (hnot | ⟨job, hjob, rfl, hjoblive⟩)
  · exact hnot (h.enqueued id hid)
  · obtain ⟨job', hjob', hexec, -, hlive'⟩ := h.jobs job hjob hid hjoblive
    exact hlive (.inr ⟨job', hjob', hexec, hlive'⟩)

theorem Enqueues.knows (h : Enqueues t u) {names names' : List String} {recovery : Recovery}
    (hknows : t.Knows names recovery)
    (hnames : ∀ (j : ℕ) (name : String), names[j]? = some name → names'[j]? = some name) :
    u.Knows names' recovery := by
  cases recovery with
  | finding => trivial
  | listing ids i queued =>
    intro id hid
    obtain ⟨henq, hjobs⟩ := hknows id hid
    refine ⟨h.enqueued id henq, ?_⟩
    rintro job hjob rfl hlive
    obtain ⟨job', hjob', hexec, hname, hlive'⟩ := h.jobs job hjob henq hlive
    refine (hjobs job' hjob' hexec hlive').imp_right ?_
    rintro ⟨j, hj, hqueue⟩
    exact ⟨j, hj, hnames j _ (hname ▸ hqueue)⟩
  | crashing n ids => exact fun id hid => h.not_isLive (hknows id hid)

/-- A step of the database or of the queues. -/
theorem Sound.enqueues (h : t.Sound) (henq : Enqueues t u) (hinst : u.instances = t.instances) :
    u.Sound := by
  refine ⟨fun p recovery hr => ?_, fun p => ?_⟩
  · rw [hinst] at hr ⊢
    exact henq.knows (h.knows p recovery hr) fun _ _ => id
  · rw [hinst]
    exact h.timed p

/-- A step of one process. -/
theorem Sound.setInstance (h : t.Sound) (henq : Enqueues t u) (hinst : u.instances = t.instances)
    {q : Instance}
    (hnames : ∀ (j : ℕ) (name : String), (t.instances p).queueNames[j]? = some name →
      q.queueNames[j]? = some name)
    (hknows : ∀ recovery ∈ q.recoveries,
      recovery ∈ (t.instances p).recoveries ∨ u.Knows q.queueNames recovery)
    (htimed : Timed q) : (u.setInstance p q).Sound := by
  refine ⟨fun p' recovery hr => ?_, fun p' => ?_⟩
  · simp only [ScalingServices.setInstance, hinst] at hr ⊢
    by_cases hp : p' = p
    · rw [hp, Function.update_self] at hr ⊢
      obtain hold | hnew := hknows recovery hr
      · exact henq.knows (h.knows p recovery hold) hnames
      · cases recovery <;> exact hnew
    · rw [Function.update_of_ne hp] at hr ⊢
      exact henq.knows (h.knows p' recovery hr) fun _ _ => id
  · simp only [ScalingServices.setInstance, hinst]
    by_cases hp : p' = p
    · rw [hp, Function.update_self]
      exact htimed
    · rw [Function.update_of_ne hp]
      exact h.timed p'

/-! ## Timers -/

section Timers

variable {q : Instance} {waitMs : ℚ}

theorem chains_eq_zero (h : q.chains = 0) : q.timers = [] ∧ q.recoveries = [] :=
  ⟨List.eq_nil_of_length_eq_zero (Nat.eq_zero_of_add_eq_zero h).1,
    List.eq_nil_of_length_eq_zero (Nat.eq_zero_of_add_eq_zero h).2⟩

theorem Timed.schedule (hzero : q.chains = 0) (hnot : q.stopped = false) :
    Timed (q.scheduleQueueRecovery waitMs) := by
  obtain ⟨htimers, hrecoveries⟩ := chains_eq_zero hzero
  refine ⟨?_, ?_, fun hstopped => ?_⟩
  · simp [Instance.scheduleQueueRecovery, Instance.chains, htimers, hrecoveries]
  · intro timer htimer
    rw [Instance.scheduleQueueRecovery, htimers] at htimer
    rw [List.mem_singleton.mp htimer]
    rfl
  · rw [Instance.scheduleQueueRecovery, hnot] at hstopped
    cases hstopped

/-- A callback under way is the only chain. -/
theorem Timed.recoveries (h : Timed q) (hc : c < q.recoveries.length) :
    q.timers = [] ∧ q.recoveries.length = 1 ∧ q.stopped = false := by
  have hchains := h.chains
  unfold Instance.chains at hchains
  refine ⟨List.eq_nil_of_length_eq_zero (by omega), by omega, ?_⟩
  refine Bool.eq_false_iff.mpr fun hstopped => ?_
  have hzero := h.stopped hstopped
  unfold Instance.chains at hzero
  omega

theorem Timed.endRecovery (h : Timed q) (hc : c < q.recoveries.length) :
    Timed (q.endRecovery c waitMs) := by
  obtain ⟨htimers, hone, hnot⟩ := h.recoveries hc
  unfold Instance.endRecovery
  refine Timed.schedule ?_ hnot
  show q.timers.length + (q.recoveries.eraseIdx c).length = 0
  rw [htimers, List.length_eraseIdx_of_lt hc, hone]
  rfl

theorem Timed.advance (h : Timed q) (recovery : Recovery) : Timed (q.advance c recovery) := by
  have hchains : (q.advance c recovery).chains = q.chains := by
    simp [Instance.advance, Instance.chains]
  exact ⟨hchains ▸ h.chains, h.armed, fun hstopped => hchains ▸ h.stopped hstopped⟩

/-- Without a callback under way, the timer that is cleared is the only one. -/
theorem Timed.stop (h : Timed q) (hnone : q.recoveries = []) :
    Timed q.stopQueueRecovery ∧ q.stopQueueRecovery.chains = 0 := by
  have htimers : q.stopQueueRecovery.timers = [] ∧ q.stopQueueRecovery.recoveries = [] := by
    unfold Instance.stopQueueRecovery
    cases htimeout : q.timeout with
    | some id =>
      refine ⟨List.filter_eq_nil_iff.mpr fun timer htimer => ?_, hnone⟩
      have harmed := h.armed timer htimer
      rw [htimeout] at harmed
      simpa using (Option.some.inj harmed).symm
    | none =>
      refine ⟨List.eq_nil_iff_forall_not_mem.mpr fun timer htimer => ?_, hnone⟩
      exact absurd (htimeout.symm.trans (h.armed timer htimer)) nofun
  have hzero : q.stopQueueRecovery.chains = 0 := by
    rw [Instance.chains, htimers.1, htimers.2]
    rfl
  refine ⟨⟨hzero.trans_le (Nat.zero_le 1), ?_, fun _ => hzero⟩, hzero⟩
  rw [htimers.1]
  exact nofun

theorem Timed.fire (h : Timed q) {timer : ℕ} (htimer : q.timers.any (·.id = timer) = true) :
    Timed
      { q with
        timers := q.timers.filter (·.id ≠ timer)
        recoveries := q.recoveries ++ [.finding] } := by
  obtain ⟨fired, hmem, hid⟩ := List.any_eq_true.mp htimer
  have hchains := h.chains
  have hpos := List.length_pos_of_mem hmem
  unfold Instance.chains at hchains
  have hnone : q.recoveries = [] := List.eq_nil_of_length_eq_zero (by omega)
  have hnotimer : q.timers.filter (·.id ≠ timer) = [] := by
    refine List.filter_eq_nil_iff.mpr fun other hother => ?_
    -- both timers are the one that was armed last
    have harmed := Option.some.inj ((h.armed other hother).symm.trans (h.armed fired hmem))
    simpa [harmed] using of_decide_eq_true hid
  refine ⟨?_, ?_, fun hstopped => ?_⟩
  · show (q.timers.filter (·.id ≠ timer)).length + (q.recoveries ++ [Recovery.finding]).length ≤ 1
    rw [hnotimer, hnone]
    rfl
  · intro other hother
    rw [hnotimer] at hother
    exact absurd hother List.not_mem_nil
  · have hzero := h.stopped hstopped
    unfold Instance.chains at hzero
    omega

theorem getElem?_openQueue {name : String} {name' : String} (h : q.queueNames[j]? = some name') :
    (q.openQueue name).queueNames[j]? = some name' := by
  unfold Instance.openQueue
  split_ifs
  · exact h
  · exact (List.getElem?_append_left (List.getElem?_eq_some_iff.mp h).1).trans h

theorem openQueue_eq (q : Instance) (name : String) :
    ∃ names, q.openQueue name = { q with queueNames := names } := by
  unfold Instance.openQueue
  split_ifs
  · exact ⟨q.queueNames, rfl⟩
  · exact ⟨_, rfl⟩

end Timers

/-! ## The steps -/

theorem getElem?_setExecution :
    (t.setExecution id f).executions[j]? =
      if j = id then t.executions[j]?.map f else t.executions[j]? := by
  show (t.executions.modify id f)[j]? = _
  rw [List.getElem?_modify]
  by_cases h : j = id
  · rw [if_pos h]
    cases t.executions[j]? with
    | none => rfl
    | some e => simp [h]
  · rw [if_neg h]
    cases t.executions[j]? with
    | none => rfl
    | some e => simp [Ne.symm h]

theorem isEnqueued_setExecution
    (hf : ∀ e, t.executions[id]? = some e → e.enqueueing = .finished → (f e).enqueueing = .finished)
    (h : t.IsEnqueued j) : (t.setExecution id f).IsEnqueued j := by
  obtain ⟨e, he, hfinished⟩ := Option.map_eq_some_iff.mp h
  unfold IsEnqueued
  rw [getElem?_setExecution, he]
  split_ifs with hj
  · exact congrArg some (hf e (hj ▸ he) hfinished)
  · exact congrArg some hfinished

theorem Enqueues.setExecution
    (hf : ∀ e, t.executions[id]? = some e → e.enqueueing = .finished →
      (f e).enqueueing = .finished) : Enqueues t (t.setExecution id f) :=
  ⟨fun _ => isEnqueued_setExecution hf, fun job hjob _ hlive => ⟨job, hjob, rfl, rfl, hlive⟩⟩

theorem Enqueues.trans {v : ScalingServices} (h : Enqueues t u) (k : Enqueues u v) :
    Enqueues t v := by
  refine ⟨fun id hid => k.enqueued id (h.enqueued id hid), fun job hjob hid hlive => ?_⟩
  obtain ⟨job', hjob', hexec', hname', hlive'⟩ := k.jobs job hjob (h.enqueued _ hid) hlive
  obtain ⟨job'', hjob'', hexec'', hname'', hlive''⟩ := h.jobs job' hjob' (hexec' ▸ hid) hlive'
  exact ⟨job'', hjob'', hexec''.trans hexec', hname''.trans hname', hlive''⟩

/-- A change of a job that does not bring it back. -/
theorem Enqueues.setJob {f : Job → Job}
    (hf : ∀ job, t.jobs[j]? = some job → (f job).executionId = job.executionId ∧
      (f job).queueName = job.queueName ∧ ((f job).isLive = true → job.isLive = true)) :
    Enqueues t { t with jobs := t.jobs.modify j f } := by
  refine ⟨fun _ => id, fun job hjob _ hlive => ?_⟩
  obtain ⟨k, hk⟩ := List.mem_iff_getElem?.mp hjob
  rw [List.getElem?_modify] at hk
  obtain ⟨job', hjob', hk⟩ := Option.map_eq_some_iff.mp hk
  by_cases hjk : j = k
  · rw [if_pos hjk] at hk
    obtain ⟨hexec, hname, hback⟩ := hf job' (hjk ▸ hjob')
    subst hk
    exact ⟨job', List.mem_of_getElem? hjob', hexec.symm, hname.symm, hback hlive⟩
  · rw [if_neg hjk] at hk
    exact ⟨job', List.mem_of_getElem? hjob', hk ▸ rfl, hk ▸ rfl, hk ▸ hlive⟩

/-- A new execution is about to be added. -/
theorem Enqueues.create :
    Enqueues t { t with executions := t.executions ++ [⟨.new, .created⟩] } := by
  refine ⟨fun j hj => ?_, fun job hjob _ hlive => ⟨job, hjob, rfl, rfl, hlive⟩⟩
  obtain ⟨e, he, hfinished⟩ := Option.map_eq_some_iff.mp hj
  unfold IsEnqueued
  rw [List.getElem?_append_left (List.getElem?_eq_some_iff.mp he).1, he]
  exact congrArg some hfinished

/-- The job that is added is for an execution that was not enqueued before. -/
theorem Enqueues.jobAdded (hs : t.jobAdded id = some u) : Enqueues t u := by
  unfold ScalingServices.jobAdded at hs
  split at hs
  · next name hname =>
    cases hs
    refine ⟨fun j hj => isEnqueued_setExecution (fun _ _ _ => rfl) hj, fun job hjob hid hlive => ?_⟩
    obtain hold | hnew := List.mem_append.mp hjob
    · exact ⟨job, hold, rfl, rfl, hlive⟩
    · rw [List.mem_singleton.mp hnew, IsEnqueued, hname] at hid
      cases hid
  · cases hs

theorem Enqueues.transitionToCrashed (t : ScalingServices) (ids : List ℕ) :
    Enqueues t (t.transitionToCrashed ids) ∧
      (t.transitionToCrashed ids).instances = t.instances := by
  unfold ScalingServices.transitionToCrashed
  induction ids generalizing t with
  | nil => exact ⟨.refl t, rfl⟩
  | cons id ids ih =>
    rw [List.foldl_cons]
    obtain ⟨henq, hinst⟩ := ih (t.setExecution id fun e =>
      if e.status.isCrashable then { e with status := .crashed } else e)
    refine ⟨.trans (.setExecution fun e _ hfinished => ?_) henq, hinst⟩
    split_ifs
    · exact hfinished
    · exact hfinished

/-- Only the executions of the batch are changed. -/
theorem getElem?_transitionToCrashed (t : ScalingServices) {ids : List ℕ} (h : j ∉ ids) :
    (t.transitionToCrashed ids).executions[j]? = t.executions[j]? := by
  unfold ScalingServices.transitionToCrashed
  induction ids generalizing t with
  | nil => rfl
  | cons id ids ih =>
    have hne : j ≠ id := List.ne_of_not_mem_cons h
    have hnot : j ∉ ids := List.not_mem_of_not_mem_cons h
    rw [List.foldl_cons, ih _ hnot, getElem?_setExecution, if_neg hne]

theorem Sound.endRecovery (h : t.Sound) (henq : Enqueues t u) (hinst : u.instances = t.instances)
    (hc : c < (t.instances p).recoveries.length) {waitMs : ℚ} :
    (u.setInstance p ((t.instances p).endRecovery c waitMs)).Sound :=
  h.setInstance henq hinst (fun _ _ => id)
    (fun _ hr => .inl ((List.eraseIdx_sublist _ c).subset hr)) ((h.timed p).endRecovery hc)

theorem Sound.advance (h : t.Sound) (henq : Enqueues t u) (hinst : u.instances = t.instances)
    {recovery : Recovery} (hknows : u.Knows (t.instances p).queueNames recovery) :
    (u.setInstance p ((t.instances p).advance c recovery)).Sound := by
  refine h.setInstance henq hinst (fun _ _ => id) (fun other hother => ?_)
    ((h.timed p).advance recovery)
  obtain hold | rfl := List.mem_or_eq_of_mem_set hother
  · exact .inl hold
  · exact .inr hknows

/-- What was not found when all queues were read has no job. -/
theorem Sound.conclude (h : t.Sound) (hc : c < (t.instances p).recoveries.length)
    {ids queued : List ℕ} (hknows : ∀ id ∈ ids, t.IsEnqueued id ∧
      ∀ job ∈ t.jobs, job.executionId = id → job.isLive = true → id ∈ queued) :
    (t.setInstance p ((t.instances p).conclude config c ids queued)).Sound := by
  unfold Instance.conclude
  dsimp only
  split_ifs
  · exact h.endRecovery (.refl t) rfl hc
  · refine h.advance (.refl t) rfl fun id hid => ?_
    obtain ⟨hmem, hnot⟩ := List.mem_filter.mp hid
    obtain ⟨henq, hjobs⟩ := hknows id hmem
    rintro (hlive | ⟨job, hjob, hexec, hlive⟩)
    · exact hlive henq
    · exact of_decide_eq_true hnot (hjobs job hjob hexec hlive)

/-- The stored executions have been added before, and their queues are open. -/
theorem Sound.find (h : t.Sound) {ids : List ℕ} (hs : t.find config p c ids = some u)
    (hslip : ¬ t.Slip (.find p c ids)) : u.Sound := by
  unfold ScalingServices.find at hs
  by_cases hguard : (t.instances p).recoveries[c]? = some .finding ∧ t.IsBatch config.batchSize ids
  swap
  · rw [if_neg hguard] at hs
    cases hs
  rw [if_pos hguard] at hs
  cases hs
  have hc := (List.getElem?_eq_some_iff.mp hguard.1).1
  have henq : ∀ id ∈ ids, t.IsEnqueued id := by
    intro id hid
    by_contra hnot
    exact hslip ⟨id, hid, .inl hnot⟩
  have hopen : ∀ id ∈ ids, ∀ job ∈ t.jobs, job.executionId = id → job.isLive = true →
      job.queueName ∈ (t.instances p).queueNames := by
    intro id hid job hjob hexec hlive
    by_contra hnot
    exact hslip ⟨id, hid, .inr ⟨job, hjob, hexec, hlive, hnot⟩⟩
  split_ifs with hnil hnone
  · exact h.endRecovery (.refl t) rfl hc
  · refine h.conclude hc fun id hid => ⟨henq id hid, fun job hjob hexec hlive => ?_⟩
    have hmem := hopen id hid job hjob hexec hlive
    rw [hnone] at hmem
    exact absurd hmem List.not_mem_nil
  · refine h.advance (.refl t) rfl fun id hid => ⟨henq id hid, fun job hjob hexec hlive => ?_⟩
    obtain ⟨j, hj⟩ := List.mem_iff_getElem?.mp (hopen id hid job hjob hexec hlive)
    exact .inr ⟨j, Nat.zero_le j, hj⟩

/-- The jobs of a queue are found when it is read. -/
theorem Sound.list (h : t.Sound) (hs : t.list config p c = some u) : u.Sound := by
  unfold ScalingServices.list at hs
  split at hs
  · next ids i queued hrecovery =>
    obtain ⟨name, hname, rfl⟩ := Option.map_eq_some_iff.mp hs
    have hc := (List.getElem?_eq_some_iff.mp hrecovery).1
    have hknows := h.knows p _ (List.mem_of_getElem? hrecovery)
    have hfound : ∀ id ∈ ids, ∀ job ∈ t.jobs, job.executionId = id → job.isLive = true →
        id ∈ queued ++ t.queuedIds name ∨
          ∃ j, i + 1 ≤ j ∧ (t.instances p).queueNames[j]? = some job.queueName := by
      rintro id hid job hjob rfl hlive
      obtain hold | ⟨j, hj, hqueue⟩ := (hknows _ hid).2 job hjob rfl hlive
      · exact .inl (List.mem_append_left _ hold)
      · obtain rfl | hlt := hj.eq_or_lt
        · refine .inl (List.mem_append_right _ (List.mem_map.mpr ⟨job, ?_, rfl⟩))
          have hsame := Option.some.inj (hqueue.symm.trans hname)
          exact List.mem_filter.mpr ⟨hjob, by simp [hsame, hlive]⟩
        · exact .inr ⟨j, hlt, hqueue⟩
    split_ifs with hmore
    · exact h.advance (.refl t) rfl fun id hid => ⟨(hknows id hid).1, hfound id hid⟩
    · refine h.conclude hc fun id hid => ⟨(hknows id hid).1, fun job hjob hexec hlive => ?_⟩
      obtain hmem | ⟨j, hj, hqueue⟩ := hfound id hid job hjob hexec hlive
      · exact hmem
      · exact absurd (hj.trans_lt (List.getElem?_eq_some_iff.mp hqueue).1) hmore
  · cases hs

theorem Sound.crash (h : t.Sound) (hs : t.crash config p c = some u) : u.Sound := by
  unfold ScalingServices.crash at hs
  split at hs
  · next stored ids hrecovery =>
    cases hs
    have hc := (List.getElem?_eq_some_iff.mp hrecovery).1
    obtain ⟨henq, hinst⟩ := Enqueues.transitionToCrashed t (ids.take maxUpdateBatchSize)
    split_ifs
    · exact h.endRecovery henq hinst hc
    · exact h.endRecovery henq hinst hc
    · refine h.advance henq hinst fun id hid => henq.not_isLive ?_
      exact h.knows p _ (List.mem_of_getElem? hrecovery) id (List.mem_of_mem_drop hid)
  · cases hs

theorem Sound.next (h : t.Sound) {e : Event} (hs : t.next config e = some u)
    (hslip : ¬ t.Slip e) : u.Sound := by
  cases e with
  | create =>
    cases hs
    exact h.enqueues .create rfl
  | addJob p id name =>
    rw [ScalingServices.next, ScalingServices.addJob] at hs
    split at hs
    · next hcreated hnames =>
      cases hs
      obtain ⟨names, hopen⟩ := openQueue_eq (t.instances p) (name.getD _)
      have htimed := h.timed p
      refine Sound.enqueues (h.setInstance (.refl t) rfl (fun _ _ => getElem?_openQueue)
        (fun recovery hr => .inl (by rwa [hopen] at hr))
        (hopen ▸ ⟨htimed.chains, htimed.armed, htimed.stopped⟩)) (.setExecution ?_) rfl
      intro e he hfinished
      have hcreated' : some e.enqueueing = some .created := by
        rw [← hcreated]
        exact (congrArg (Option.map Execution.enqueueing) he).symm
      rw [hfinished] at hcreated'
      cases hcreated'
    · cases hs
  | jobAdded id =>
    have hinst : u.instances = t.instances := by
      rw [ScalingServices.next, ScalingServices.jobAdded] at hs
      split at hs
      · cases hs
        rfl
      · cases hs
    exact h.enqueues (.jobAdded hs) hinst
  | jobNotAdded id failed =>
    rw [ScalingServices.next, ScalingServices.jobNotAdded] at hs
    split at hs
    · cases hs
    · cases hs
    · cases hs
      exact h.enqueues (.setExecution fun _ _ _ => rfl) rfl
  | pickUp j =>
    rw [ScalingServices.next] at hs
    split_ifs at hs with hwaiting
    cases hs
    refine h.enqueues (.setJob fun job hjob => ⟨rfl, rfl, fun _ => ?_⟩) rfl
    rw [hjob] at hwaiting
    have hstatus : job.status = .waiting := by simpa using hwaiting
    simp [Job.isLive, hstatus]
  | finishJob j =>
    cases hs
    refine h.enqueues (.setJob fun job _ => ⟨rfl, rfl, fun hlive => ?_⟩) rfl
    cases hlive
  | setStatus id status =>
    rw [ScalingServices.next] at hs
    split_ifs at hs
    cases hs
    exact h.enqueues (.setExecution fun _ _ hfinished => hfinished) rfl
  | setupQueue p =>
    cases hs
    split_ifs
    · have htimed := h.timed p
      exact h.setInstance (.refl t) rfl (fun _ _ => id) (fun _ => .inl)
        ⟨htimed.chains, htimed.armed, htimed.stopped⟩
    · exact h
  | queueSetUp p name =>
    rw [ScalingServices.next] at hs
    split_ifs at hs
    cases hs
    dsimp only
    have htimed := h.timed p
    have hnames : ∀ (j : ℕ) (name' : String), (t.instances p).queueNames[j]? = some name' →
        (Instance.openQueue
          { t.instances p with settingUp := (t.instances p).settingUp - 1 } name).queueNames[j]? =
          some name' :=
      fun j name' hj => getElem?_openQueue
        (q := { t.instances p with settingUp := (t.instances p).settingUp - 1 }) hj
    obtain ⟨names, hopen⟩ := openQueue_eq
      { t.instances p with settingUp := (t.instances p).settingUp - 1 } name
    rw [hopen] at hnames ⊢
    split_ifs with hleader
    · refine h.setInstance (.refl t) rfl hnames (fun _ => .inl) (Timed.schedule ?_ ?_)
      · by_contra hchains
        exact hslip ⟨hleader, .inl hchains⟩
      · refine Bool.eq_false_iff.mpr fun hstopped => ?_
        exact hslip ⟨hleader, .inr hstopped⟩
    · exact h.setInstance (.refl t) rfl hnames (fun _ => .inl)
        ⟨htimed.chains, htimed.armed, htimed.stopped⟩
  | takeover p =>
    cases hs
    refine h.setInstance (.refl t) rfl (fun _ _ => id) (fun _ => .inl) (Timed.schedule ?_ rfl)
    exact not_not.mp hslip
  | stepdown p =>
    cases hs
    obtain ⟨htimed, hzero⟩ := (h.timed p).stop (not_not.mp hslip)
    refine h.setInstance (.refl t) rfl (fun j name hj => ?_) (fun recovery hr => ?_)
      ⟨htimed.chains, htimed.armed, htimed.stopped⟩
    · unfold Instance.stopQueueRecovery
      split <;> exact hj
    · exact absurd hr ((chains_eq_zero hzero).2 ▸ List.not_mem_nil)
  | stop p =>
    cases hs
    obtain ⟨htimed, hzero⟩ := (h.timed p).stop (not_not.mp hslip)
    refine h.setInstance (.refl t) rfl (fun j name hj => ?_) (fun recovery hr => ?_) htimed
    · unfold Instance.stopQueueRecovery
      split <;> exact hj
    · exact absurd hr ((chains_eq_zero hzero).2 ▸ List.not_mem_nil)
  | fire p timer =>
    rw [ScalingServices.next] at hs
    split_ifs at hs with htimer
    cases hs
    refine h.setInstance (.refl t) rfl (fun _ _ => id) (fun recovery hr => ?_)
      ((h.timed p).fire htimer)
    obtain hold | hnew := List.mem_append.mp hr
    · exact .inl hold
    · rw [List.mem_singleton.mp hnew]
      exact .inr trivial
  | find p c ids => exact h.find hs hslip
  | list p c => exact h.list hs
  | crash p c => exact h.crash hs
  | fail p c =>
    rw [ScalingServices.next] at hs
    split_ifs at hs with hc
    cases hs
    exact h.endRecovery (.refl t) rfl hc

/-! ## Safety -/

def KeepsUncrashed (t u : ScalingServices) : Prop := ∀ id, u.IsCrashed id → t.IsCrashed id

theorem KeepsUncrashed.of_eq (h : u.executions = t.executions) : KeepsUncrashed t u := by
  intro id hid
  unfold IsCrashed
  rw [← h]
  exact hid

theorem KeepsUncrashed.setExecution (hf : ∀ e, (f e).status = .crashed → e.status = .crashed) :
    KeepsUncrashed t (t.setExecution id f) := by
  intro j hj
  unfold IsCrashed at hj ⊢
  rw [getElem?_setExecution] at hj
  split_ifs at hj
  · rw [Option.map_map] at hj
    obtain ⟨e, he, hcrashed⟩ := Option.map_eq_some_iff.mp hj
    rw [he]
    exact congrArg some (hf e hcrashed)
  · exact hj

theorem KeepsUncrashed.next {e : Event} (hs : t.next config e = some u)
    (hcrash : ∀ p c, e ≠ .crash p c) : KeepsUncrashed t u := by
  cases e with
  | create =>
    cases hs
    intro j hj
    unfold IsCrashed at hj ⊢
    by_cases hlt : j < t.executions.length
    · rwa [List.getElem?_append_left hlt] at hj
    · obtain ⟨e, he, hcrashed⟩ := Option.map_eq_some_iff.mp hj
      rw [List.getElem?_append_right (not_lt.mp hlt)] at he
      -- a new execution is not crashed
      rw [List.mem_singleton.mp (List.mem_of_getElem? he)] at hcrashed
      cases hcrashed
  | addJob p id name =>
    rw [ScalingServices.next, ScalingServices.addJob] at hs
    split at hs
    · cases hs
      exact .setExecution fun _ hcrashed => hcrashed
    · cases hs
  | jobAdded id =>
    rw [ScalingServices.next, ScalingServices.jobAdded] at hs
    split at hs
    · cases hs
      exact KeepsUncrashed.setExecution (t := t) fun _ hcrashed => hcrashed
    · cases hs
  | jobNotAdded id failed =>
    rw [ScalingServices.next, ScalingServices.jobNotAdded] at hs
    split at hs
    · cases hs
    · cases hs
    · cases hs
      refine .setExecution fun e hcrashed => ?_
      cases failed
      · exact hcrashed
      · cases hcrashed
  | pickUp j =>
    rw [ScalingServices.next] at hs
    split_ifs at hs
    cases hs
    exact .of_eq rfl
  | setStatus id status =>
    rw [ScalingServices.next] at hs
    split_ifs at hs with hne
    cases hs
    exact .setExecution fun _ hcrashed => absurd hcrashed hne
  | setupQueue p =>
    cases hs
    refine .of_eq ?_
    split_ifs <;> rfl
  | queueSetUp p name =>
    rw [ScalingServices.next] at hs
    split_ifs at hs
    cases hs
    exact .of_eq rfl
  | fire p timer =>
    rw [ScalingServices.next] at hs
    split_ifs at hs
    cases hs
    exact .of_eq rfl
  | find p c ids =>
    rw [ScalingServices.next, ScalingServices.find] at hs
    split_ifs at hs <;> obtain rfl := Option.some.inj hs <;> exact .of_eq rfl
  | list p c =>
    rw [ScalingServices.next, ScalingServices.list] at hs
    split at hs
    · obtain ⟨name, -, rfl⟩ := Option.map_eq_some_iff.mp hs
      exact .of_eq rfl
    · cases hs
  | crash p c => exact absurd rfl (hcrash p c)
  | fail p c =>
    rw [ScalingServices.next] at hs
    split_ifs at hs
    cases hs
    exact .of_eq rfl
  | finishJob j =>
    cases hs
    exact .of_eq rfl
  | takeover p =>
    cases hs
    exact .of_eq rfl
  | stepdown p =>
    cases hs
    exact .of_eq rfl
  | stop p =>
    cases hs
    exact .of_eq rfl

/-- Only executions without a job are marked. -/
theorem Sound.not_isLive (h : t.Sound) (hs : t.crash config p c = some u)
    (hbefore : ¬ t.IsCrashed id) (hafter : u.IsCrashed id) : ¬ t.IsLive id := by
  unfold ScalingServices.crash at hs
  split at hs
  · next stored ids hrecovery =>
    cases hs
    by_cases hid : id ∈ ids.take maxUpdateBatchSize
    · exact h.knows p _ (List.mem_of_getElem? hrecovery) id (List.mem_of_mem_take hid)
    · have hsame := getElem?_transitionToCrashed t hid
      refine absurd ?_ hbefore
      unfold IsCrashed
      rw [← hsame]
      exact hafter
  · cases hs

theorem Sound.isSafe (h : t.Sound) : t.IsSafe config where
  crash e u id hs hbefore hafter := by
    cases e with
    | crash p c => exact h.not_isLive hs hbefore hafter
    | _ => exact absurd (KeepsUncrashed.next hs nofun id hafter) hbefore
  chains p := (h.timed p).chains
  stopped p := (h.timed p).stopped

/-! ## Runs -/

section Runs

variable {isLeader : ℕ → Bool} {es : List Event}

/-- Runs without a slip. -/
abbrev Steady (config : QueueRecoveryConfig) : Transition.System ScalingServices Event :=
  (scalingServices config).restrict fun t e _ => ¬ t.Slip e

theorem sound_run (h : (Steady config).Run (initial isLeader) es t) : t.Sound := by
  refine h.history_invariant (I := fun _ t => t.Sound) (.initial isLeader) ?_
  rintro es t e u hsound ⟨hs, hslip⟩
  exact hsound.next hs hslip

/-- **Recovery along a run without a slip**: no live execution is marked as crashed, and there is
at most one chain of recovery timers in a process, and none after it was stopped. -/
theorem recovery_run (h : (Steady config).Run (initial isLeader) es t) : t.IsSafe config :=
  (sound_run h).isSafe

/-- The execution that was left behind is marked, and the one in the queue is not. -/
theorem recovery_run_crash : ∃ t : ScalingServices,
    t.executions.map Execution.status = [.new, .crashed] ∧ t.IsSafe ⟨2, 180000⟩ := by
  obtain ⟨t, hrun, hstatus⟩ : ∃ t, (Steady ⟨2, 180000⟩).Run (initial fun p => p = 0)
      [.setupQueue 0, .queueSetUp 0 "jobs", .create, .create, .addJob 0 0 none, .jobAdded 0,
        .jobNotAdded 1 false, .fire 0 0, .find 0 0 [0, 1], .list 0 0, .crash 0 0] t ∧
        t.executions.map Execution.status = [.new, .crashed] := by
    refine ⟨_, .restrict_cons rfl id <| .restrict_cons rfl ?_ <| .restrict_cons rfl id <|
      .restrict_cons rfl id <| .restrict_cons rfl id <| .restrict_cons rfl id <|
      .restrict_cons rfl id <| .restrict_cons rfl id <| .restrict_cons rfl ?_ <|
      .restrict_cons rfl id <| .restrict_cons rfl id .nil, by decide +kernel⟩
    · rintro ⟨-, hchains | hstopped⟩
      · exact hchains rfl
      · cases hstopped
    · rintro ⟨id, hid, hnot | ⟨job, hjob, -, -, hqueue⟩⟩
      -- both executions are enqueued, and the queue is open
      · obtain rfl | hid := List.mem_cons.mp hid
        · exact hnot rfl
        · rw [List.mem_singleton.mp hid] at hnot
          exact hnot rfl
      · rw [List.mem_singleton.mp hjob] at hqueue
        exact hqueue (List.mem_singleton.mpr rfl)
  exact ⟨t, hstatus, recovery_run hrun⟩

/-- **Live executions that are marked**: one whose job is about to be added, and one in the queue of
a pool that only another process has opened. And a callback under way when recovery is stopped arms
the next timer. -/
theorem not_safe :
    (∃ t : ScalingServices, (scalingServices ⟨10, 180000⟩).Run (initial fun p => p = 0)
        [.setupQueue 0, .queueSetUp 0 "jobs", .create, .fire 0 0, .find 0 0 [0], .list 0 0] t ∧
      ¬ t.IsSafe ⟨10, 180000⟩) ∧
    (∃ t : ScalingServices, (scalingServices ⟨10, 180000⟩).Run (initial fun p => p = 0)
        [.setupQueue 0, .queueSetUp 0 "jobs", .setupQueue 1, .queueSetUp 1 "jobs", .create,
          .addJob 1 0 (some "jobs-gpu"), .jobAdded 0, .fire 0 0, .find 0 0 [0], .list 0 0] t ∧
      ¬ t.IsSafe ⟨10, 180000⟩) ∧
    ∃ t : ScalingServices, (scalingServices ⟨10, 180000⟩).Run (initial fun p => p = 0)
        [.setupQueue 0, .queueSetUp 0 "jobs", .fire 0 0, .stepdown 0, .find 0 0 []] t ∧
      ¬ t.IsSafe ⟨10, 180000⟩ := by
  refine ⟨⟨_, Transition.System.run_of_follow id rfl, fun h => ?_⟩,
    ⟨_, Transition.System.run_of_follow id rfl, fun h => ?_⟩,
    ⟨_, Transition.System.run_of_follow id rfl, fun h => ?_⟩⟩
  · exact h.crash (.crash 0 0) _ 0 rfl nofun rfl (.inl nofun)
  · exact h.crash (.crash 0 0) _ 0 rfl nofun rfl (.inr ⟨_, List.mem_cons_self, rfl, rfl⟩)
  · exact absurd (h.stopped 0 rfl) nofun

end Runs

end ScalingServices

end N8n.Scaling.Queues
