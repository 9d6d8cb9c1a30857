import N8n.Engine.Handlers

/-!
# Safety of an execution

What every reachable state of the system of an accepted graph satisfies, whatever the interleaving
of the handlers: the table is orderly, every handler acts on what it has read as if it read it now,
and an execution is recorded as completed only when its table is complete.

## Main definitions

* `PcInv`: what a handler at some point knows about the table
* `Safe`: the invariant of the system

## Main results

* `advance_table`, `advance_pc`, `advance_status`: what one operation of a handler keeps
* `safe_of_reachable`: every reachable state is safe
* `completed_final`: a completed execution has settled, and it stays as it is
* `planners_converge`: planners that race decide the same
-/

namespace N8n.Engine

theorem Executable.findTriggerNode {graph : WorkflowGraph} {trigger : GraphNode}
    (h : Executable graph trigger) : findTriggerNode graph = some trigger := by
  rw [Engine.findTriggerNode, ← List.head?_filter, h.triggers]
  rfl

/-! ## Orderly tables under the store operations -/

section Tables

variable {graph : WorkflowGraph} {trigger : GraphNode} {table table' : StepTable}

section Orderly

variable (ho : Orderly graph trigger table)
include ho

theorem Orderly.update (hext : table.Extends table')
    (hkeys : table'.rows.map StepRecord.toStepKey = table.rows.map StepRecord.toStepKey) :
    Orderly graph trigger table' := by
  refine ho.extend hext fun row hr => .inl ?_
  have hmem : row.toStepKey ∈ table.rows.map StepRecord.toStepKey :=
    hkeys ▸ List.mem_map_of_mem hr
  exact List.mem_map.mp hmem

theorem Orderly.createSteps {records : List NewStepRecord}
    (ha : ∀ record ∈ records, Admissible graph trigger table record.toStepKey) :
    Orderly graph trigger (table.createSteps records).1 := by
  obtain ⟨hrows, -, hnew, -⟩ := table.exists_created records
  refine ho.extend (table.extends_createSteps records) fun row hr => ?_
  rw [hrows] at hr
  rcases List.mem_append.mp hr with hr | hr
  · exact .inl ⟨row, hr, rfl⟩
  · obtain ⟨-, record, hrec, hrow⟩ := hnew row hr
    rw [hrow]
    exact .inr (ha record hrec)

theorem Orderly.claimStep (id : ℕ) : Orderly graph trigger (table.claimStep id).1 :=
  ho.update (table.extends_claimStep id) (table.claimStep_keys id)

theorem Orderly.completeStep (id : ℕ) (outputs : StepSlots) :
    Orderly graph trigger (table.completeStep id outputs).1 :=
  ho.update (table.extends_completeStep id outputs) (table.completeStep_keys id outputs)

theorem Orderly.failStep (id : ℕ) (error : StepError) :
    Orderly graph trigger (table.failStep id error).1 :=
  ho.update (table.extends_failStep id error) (table.failStep_keys id error)

theorem Orderly.cancelQueuedSteps : Orderly graph trigger table.cancelQueuedSteps :=
  ho.update table.extends_cancelQueuedSteps table.cancelQueuedSteps_keys

end Orderly

end Tables

theorem Executable.admissible_trigger {graph : WorkflowGraph} {trigger : GraphNode}
    (h : Executable graph trigger) (table : StepTable) :
    Admissible graph trigger table ⟨trigger.id, 0⟩ where
  reachable := mem_reachableFrom.mpr .refl
  plain _ := rfl
  head _ _ _ i hi := (Nat.succ_ne_zero i hi.symm).elim
  body loop hl hin _ := absurd hin (h.trigger_outside loop hl)

/-! ## What a handler knows -/

/-- What a handler at a point knows about the table. It stays true while the table grows. -/
def PcInv (graph : WorkflowGraph) (trigger : GraphNode) (table : StepTable) : Pc → Prop
  | .loadSettledExecution step => step.Settled → step ∈ table.rows
  | .checkFailed step => step ∈ table.rows ∧ step.Settled
  | .loadTerminals step => step ∈ table.rows ∧ step.Settled
  | .loadSteps step terminalIterations => step ∈ table.rows ∧ step.Settled ∧
      ∃ earlier, Orderly graph trigger earlier ∧ earlier.Extends table ∧
        terminalIterations = planTerminals graph earlier step.toStepKey
  | .createSuccessors decisions =>
      (∀ key ∈ decisions.toQueue, Admissible graph trigger table key ∧
        fateFrom graph table table key = .queued) ∧
      ∀ key ∈ decisions.toSkip, Admissible graph trigger table key ∧
        fateFrom graph table table key = .skipped
  | .countSettled expected => expectedSteps graph trigger table = some expected
  | .checkOutcome => Complete graph trigger table
  | .recordOutcome failed => Complete graph trigger table ∧ failed = table.hasFailedSteps
  | .failExecution => table.hasFailedSteps = true
  | .cancelQueued => table.hasFailedSteps = true
  | _ => True

section Handlers

variable {execution : ExecutionRecord} {trigger : GraphNode}
  (h : Executable execution.graph trigger) {table table' : StepTable} {store : Store}

include h

/-- A complete table has failed steps later if and only if it has them now. -/
theorem hasFailedSteps_of_complete (ho : Orderly execution.graph trigger table)
    (ho' : Orderly execution.graph trigger table') (hext : table.Extends table')
    (hc : Complete execution.graph trigger table) :
    table'.hasFailedSteps = table.hasFailedSteps := by
  rw [Bool.eq_iff_iff, StepTable.hasFailedSteps_iff, StepTable.hasFailedSteps_iff]
  simp only [Executable.Complete.final h ho ho' hext hc]

/-- **What a handler knows stays true** while the table grows. -/
theorem PcInv.mono (ho : Orderly execution.graph trigger table)
    (ho' : Orderly execution.graph trigger table') (hext : table.Extends table') {pc : Pc}
    (hp : PcInv execution.graph trigger table pc) : PcInv execution.graph trigger table' pc := by
  have hfate : ∀ key fate, fate ≠ .undecidable → fateFrom execution.graph table table key = fate →
      fateFrom execution.graph table' table' key = fate := by
    rintro key fate hne rfl
    exact h.fate_stable ho ho ho' hext hext hne
  cases pc with
  | loadSettledExecution step => exact fun hs => hext.settled (hp hs) hs
  | checkFailed step => exact ⟨hext.settled hp.1 hp.2, hp.2⟩
  | loadTerminals step => exact ⟨hext.settled hp.1 hp.2, hp.2⟩
  | loadSteps step terminalIterations =>
    obtain ⟨hr, hs, earlier, hoe, hee, ht⟩ := hp
    exact ⟨hext.settled hr hs, hs, earlier, hoe, hee.trans hext, ht⟩
  | createSuccessors decisions =>
    exact ⟨fun key hk => ⟨(hp.1 key hk).1.mono hext, hfate _ _ (by simp) (hp.1 key hk).2⟩,
      fun key hk => ⟨(hp.2 key hk).1.mono hext, hfate _ _ (by simp) (hp.2 key hk).2⟩⟩
  | countSettled expected => exact h.expectedSteps_mono ho ho' hext hp
  | checkOutcome => exact Executable.Complete.mono h ho ho' hext hp
  | recordOutcome failed =>
    exact ⟨Executable.Complete.mono h ho ho' hext hp.1,
      hp.2.trans (hasFailedSteps_of_complete h ho ho' hext hp.1).symm⟩
  | failExecution => exact hext.hasFailedSteps hp
  | cancelQueued => exact hext.hasFailedSteps hp
  | _ => trivial

/-- The planner's decisions, from the rows it loads now and the last passes it loaded before. -/
theorem planSuccessors_valid {earlier : StepTable} (ho : Orderly execution.graph trigger table)
    (hoe : Orderly execution.graph trigger earlier) (hee : earlier.Extends table)
    {step : StepRecord} (hr : step ∈ table.rows) (hs : step.Settled) :
    PcInv execution.graph trigger table (.createSuccessors (planSuccessors execution.graph
      step.toStepKey (planTerminals execution.graph earlier step.toStepKey) table)) := by
  have hfate : ∀ key fate, fate ≠ .undecidable →
      fateFrom execution.graph earlier table key = fate →
      fateFrom execution.graph table table key = fate := by
    rintro key fate hne rfl
    exact h.fate_stable ho hoe ho hee (.refl table) hne
  rw [planSuccessors_eq]
  refine ⟨fun key hk => ?_, fun key hk => ?_⟩
  · obtain ⟨hc, -, hf⟩ := mem_toQueue.mp hk
    exact ⟨h.admissible_of_considers ho hr hs hc, hfate key _ (by simp) hf⟩
  · obtain ⟨hc, -, hf⟩ := mem_toSkip.mp hk
    exact ⟨h.admissible_of_considers ho hr hs hc, hfate key _ (by simp) hf⟩

omit h in
/-- The completion check computes the formula from the table. -/
theorem finishTerminals_count (table : StepTable) :
    countExpectedSettledSteps (deriveLoops execution.graph)
      (reachableNodeIds execution.graph trigger) (finishTerminals execution trigger table) =
      expectedSteps execution.graph trigger table := by
  refine countExpectedSettledSteps_congr fun loop hl hr => loadTerminalIterations_apply ?_
  exact List.mem_map_of_mem (List.mem_filter.mpr ⟨hl, by simpa using hr⟩)

/-- One operation of a handler extends the table and keeps it orderly. -/
theorem advance_table (outcome : Except StepError StepSlots) {pc : Pc}
    (ho : Orderly execution.graph trigger store.steps)
    (hp : PcInv execution.graph trigger store.steps pc) :
    store.steps.Extends (advance execution outcome store pc).store.steps ∧
      Orderly execution.graph trigger (advance execution outcome store pc).store.steps := by
  have hsame : ∀ status, store.steps.Extends (Store.mk status store.steps).steps ∧
      Orderly execution.graph trigger (Store.mk status store.steps).steps :=
    fun _ => ⟨.refl _, ho⟩
  have htransition : ∀ f t, (store.transitionStatus f t).1.steps = store.steps := by
    intro f t
    unfold Store.transitionStatus
    split_ifs <;> rfl
  cases pc with
  | claimExecution =>
    simp only [advance, htransition]
    exact hsame store.status
  | createTrigger =>
    simp only [advance, h.findTriggerNode]
    refine ⟨store.steps.extends_createSteps _, ho.createSteps fun record hrec => ?_⟩
    rw [List.mem_singleton.mp hrec]
    exact h.admissible_trigger store.steps
  | failExecution =>
    simp only [advance, Store.finishExecution, htransition]
    exact hsame store.status
  | cancelQueued => exact ⟨store.steps.extends_cancelQueuedSteps, ho.cancelQueuedSteps⟩
  | createSuccessors decisions =>
    refine ⟨store.steps.extends_createSteps _, ho.createSteps fun record hrec => ?_⟩
    rcases List.mem_append.mp hrec with hrec | hrec
    · obtain ⟨key, hk, rfl⟩ := List.mem_map.mp hrec
      exact (hp.1 key hk).1
    · obtain ⟨key, hk, rfl⟩ := List.mem_map.mp hrec
      exact (hp.2 key hk).1
  | recordOutcome failed =>
    simp only [advance, Store.finishExecution, htransition]
    exact hsame store.status
  | claimStep stepId => exact ⟨store.steps.extends_claimStep stepId, ho.claimStep stepId⟩
  | recordStep stepId outcome =>
    cases outcome with
    | ok outputs =>
      exact ⟨store.steps.extends_completeStep stepId outputs, ho.completeStep stepId outputs⟩
    | error error => exact ⟨store.steps.extends_failStep stepId error, ho.failStep stepId error⟩
  | countExpected =>
    exact hsame store.status
  | announce messages finish => cases messages <;> exact hsame store.status
  | _ => exact hsame store.status

/-- A handler knows what its next point needs. -/
theorem advance_pc (outcome : Except StepError StepSlots) {pc pc' : Pc}
    (ho : Orderly execution.graph trigger store.steps)
    (hp : PcInv execution.graph trigger store.steps pc)
    (hn : (advance execution outcome store pc).next = .continue pc') :
    PcInv execution.graph trigger (advance execution outcome store pc).store.steps pc' := by
  cases pc with
  | claimExecution =>
    simp only [advance] at hn
    split_ifs at hn
    cases hn
    trivial
  | createTrigger =>
    simp only [advance, h.findTriggerNode] at hn
    split at hn
    · cases hn
    · cases hn
      trivial
  | loadSettledStep stepId =>
    simp only [advance] at hn
    split at hn
    · cases hn
    · rename_i step hstep
      cases hn
      exact fun _ => (StepTable.loadStep_eq_some.mp hstep).1
  | loadSettledExecution step =>
    simp only [advance] at hn
    split at hn
    · cases hn
    · split_ifs at hn with hfailed hrunning hdone
      · cases hn
        have hs : step.Settled := by simp [StepRecord.Settled, hfailed, isSettledStatus]
        exact StepTable.hasFailedSteps_iff.mpr ⟨step, hp hs, hfailed⟩
      · cases hn
        have hs : step.Settled := by
          rcases hdone with hd | hd <;> simp [StepRecord.Settled, hd, isSettledStatus]
        exact ⟨hp hs, hs⟩
      · cases hn
        trivial
  | failExecution =>
    cases hn
    simp only [advance, Store.finishExecution, Store.transitionStatus]
    split_ifs <;> exact hp
  | cancelQueued => cases hn
  | checkFailed step =>
    simp only [advance] at hn
    split_ifs at hn with hfailed
    · cases hn
      exact hfailed
    · cases hn
      exact hp
  | loadTerminals step =>
    cases hn
    exact ⟨hp.1, hp.2, store.steps, ho, .refl _, rfl⟩
  | loadSteps step terminalIterations =>
    obtain ⟨hr, hs, earlier, hoe, hee, rfl⟩ := hp
    simp only [advance] at hn
    split_ifs at hn
    · cases hn
      trivial
    · cases hn
      exact planSuccessors_valid h ho hoe hee hr hs
  | createSuccessors decisions =>
    cases hn
    trivial
  | countExpected =>
    simp only [advance, h.findTriggerNode, finishTerminals_count] at hn
    split at hn
    · cases hn
    · rename_i expected hexp
      cases hn
      exact hexp
  | countSettled expected =>
    simp only [advance] at hn
    split_ifs at hn with hlt
    cases hn
    exact ⟨expected, hp, not_lt.mp hlt⟩
  | checkOutcome =>
    cases hn
    exact ⟨hp, rfl⟩
  | recordOutcome failed => cases hn
  | claimStep stepId =>
    simp only [advance] at hn
    split at hn
    · cases hn
    · cases hn
      trivial
  | loadReadyExecution step =>
    simp only [advance] at hn
    split at hn
    · cases hn
    · split_ifs at hn
      cases hn
      trivial
  | runStep step =>
    cases hn
    trivial
  | recordStep stepId outcome =>
    simp only [advance] at hn
    split_ifs at hn
    cases hn
    trivial
  | announce messages finish =>
    cases messages with
    | nil =>
      simp only [advance] at hn
      split_ifs at hn
      cases hn
      trivial
    | cons message messages =>
      cases hn
      trivial

/-- What one operation may do to the status of the execution. -/
theorem advance_status (outcome : Except StepError StepSlots) {pc : Pc}
    (hp : PcInv execution.graph trigger store.steps pc) :
    (advance execution outcome store pc).store.status = store.status ∨
      (store.status = .queued ∧ (advance execution outcome store pc).store.status = .running) ∨
      (advance execution outcome store pc).store.status = .failed ∧
        store.steps.hasFailedSteps = true ∨
      (advance execution outcome store pc).store.status = .completed ∧
        Complete execution.graph trigger store.steps ∧ store.steps.hasFailedSteps = false := by
  cases pc with
  | claimExecution =>
    simp only [advance, Store.transitionStatus]
    split_ifs with hq
    · exact .inr (.inl ⟨hq, rfl⟩)
    · exact .inl rfl
  | createTrigger =>
    simp only [advance, h.findTriggerNode]
    exact .inl trivial
  | failExecution =>
    simp only [advance, Store.finishExecution, Store.transitionStatus]
    split_ifs with hr
    · exact .inr (.inr (.inl ⟨rfl, hp⟩))
    · exact .inl rfl
  | recordOutcome failed =>
    obtain ⟨hc, rfl⟩ := hp
    simp only [advance, Store.finishExecution, Store.transitionStatus]
    split_ifs with hr hf
    · exact .inr (.inr (.inl ⟨rfl, hf⟩))
    · exact .inr (.inr (.inr ⟨rfl, hc, by simpa using hf⟩))
    · exact .inl rfl
  | announce messages finish => cases messages <;> exact .inl rfl
  | _ => exact .inl rfl

end Handlers

/-! ## Every reachable state is safe -/

/-- The invariant of the system. -/
structure Safe (graph : WorkflowGraph) (trigger : GraphNode) (s : State) : Prop where
  orderly : Orderly graph trigger s.store.steps
  pc : ∀ p ∈ s.processes, PcInv graph trigger s.store.steps p.pc
  completed : s.store.status = .completed →
    Complete graph trigger s.store.steps ∧ s.store.steps.hasFailedSteps = false
  failed : s.store.status = .failed → s.store.steps.hasFailedSteps = true
  not_cancelled : s.store.status ≠ .cancelled

section Reachable

variable {execution : ExecutionRecord} {trigger : GraphNode}
  (h : Executable execution.graph trigger) {s t : State}

include h

omit h in
theorem pcInv_handler (graph : WorkflowGraph) (trigger : GraphNode) (table : StepTable)
    (message : Message) : PcInv graph trigger table message.handler := by
  cases message <;> trivial

omit h in
theorem safe_initial (graph : WorkflowGraph) (trigger : GraphNode) :
    Safe graph trigger .initial where
  orderly := fun row hr => absurd hr (List.not_mem_nil (a := row))
  pc := fun p hp => absurd hp (List.not_mem_nil (a := p))
  completed := fun hc => by simp [State.initial] at hc
  failed := fun hf => by simp [State.initial] at hf
  not_cancelled := by simp [State.initial]

/-- **One step keeps the invariant and extends the table.** -/
theorem Safe.next (hs : Safe execution.graph trigger s) {e : Event}
    (hn : s.next execution e = some t) :
    Safe execution.graph trigger t ∧ s.store.steps.Extends t.store.steps := by
  rcases next_cases hn with ⟨m, hm, rfl⟩ | ⟨p, outcome, hmove⟩ | ⟨-, hstore, -, -, hproc⟩
  · refine ⟨⟨hs.orderly, fun q hq => ?_, hs.completed, hs.failed, hs.not_cancelled⟩, .refl _⟩
    rcases List.mem_append.mp hq with hq | hq
    · exact hs.pc q hq
    · rw [List.mem_singleton.mp hq]
      exact pcInv_handler _ _ _ m
  · have hp := hs.pc p hmove.mem
    obtain ⟨hext, ho⟩ := advance_table h outcome hs.orderly hp
    have hstatus := advance_status h outcome hp
    rw [← hmove.store] at hext ho hstatus
    refine ⟨⟨ho, fun q hq => ?_, fun hc => ?_, fun hf => ?_, fun hx => ?_⟩, hext⟩
    · rcases hmove.after q hq with hq | ⟨pc, hnext, rfl⟩
      · exact PcInv.mono h hs.orderly ho hext (hs.pc q hq)
      · rw [hmove.store]
        exact advance_pc h outcome hs.orderly hp hnext
    · have hdone : Complete execution.graph trigger s.store.steps ∧
          s.store.steps.hasFailedSteps = false := by
        rcases hstatus with he | ⟨-, he⟩ | ⟨he, -⟩ | ⟨-, hdone⟩
        · exact hs.completed (he ▸ hc)
        · simp [he] at hc
        · simp [he] at hc
        · exact hdone
      exact ⟨Executable.Complete.mono h hs.orderly ho hext hdone.1,
        (hasFailedSteps_of_complete h hs.orderly ho hext hdone.1).trans hdone.2⟩
    · rcases hstatus with he | ⟨-, he⟩ | ⟨-, hfailed⟩ | ⟨he, -⟩
      · exact hext.hasFailedSteps (hs.failed (he ▸ hf))
      · simp [he] at hf
      · exact hext.hasFailedSteps hfailed
      · simp [he] at hf
    · rcases hstatus with he | ⟨-, he⟩ | ⟨he, -⟩ | ⟨he, -⟩
      · exact hs.not_cancelled (he ▸ hx)
      all_goals simp [he] at hx
  · have hext : s.store.steps.Extends t.store.steps := hstore ▸ .refl _
    refine ⟨⟨hstore ▸ hs.orderly, fun q hq => ?_, ?_, ?_, ?_⟩, hext⟩
    · exact hstore ▸ hs.pc q (hproc q hq)
    · exact hstore ▸ hs.completed
    · exact hstore ▸ hs.failed
    · exact hstore ▸ hs.not_cancelled

/-- **Every reachable state is safe.** -/
theorem safe_of_reachable (hs : (engine execution).Reachable s) :
    Safe execution.graph trigger s := by
  refine hs.invariant (fun h₀ => ?_) fun hu hn => (hu.next h hn).1
  exact h₀ ▸ safe_initial execution.graph trigger

/-- The table only grows along a run. -/
theorem extends_of_later (hs : (engine execution).Reachable s) (ht : (engine execution).Later s t) :
    s.store.steps.Extends t.store.steps :=
  ht.preserved (R := fun s t => s.store.steps.Extends t.store.steps) hs (fun _ => .refl _) .trans
    fun hu hn => ((safe_of_reachable h hu).next h hn).2

end Reachable

/-! ## Completion and convergence -/

section Results

variable {execution : ExecutionRecord}

/-- **A completed execution is over**: every row has settled, none has failed, and no later handler
creates a row. -/
theorem completed_final (hv : validateExecutableGraph execution.graph = .ok ()) {s : State}
    (hs : (engine execution).Reachable s) (hc : s.store.status = .completed) :
    (∀ row ∈ s.store.steps.rows, row.Settled ∧ row.status ≠ .failed) ∧
      ∀ t, (engine execution).Later s t →
        ∀ row, row ∈ t.store.steps.rows ↔ row ∈ s.store.steps.rows := by
  obtain ⟨trigger, h⟩ := exists_executable hv
  have hsafe := safe_of_reachable h hs
  obtain ⟨hcomplete, hnone⟩ := hsafe.completed hc
  refine ⟨fun row hr => ⟨Executable.Complete.settled h hsafe.orderly hcomplete row hr, ?_⟩,
    fun t ht row => ?_⟩
  · intro hf
    have := StepTable.hasFailedSteps_iff.mpr ⟨row, hr, hf⟩
    simp [hnone] at this
  · have ht' := safe_of_reachable h (hs.later ht)
    exact Executable.Complete.final h hsafe.orderly ht'.orderly (extends_of_later h hs ht)
      hcomplete row

theorem completed_final_linear : linearEnd.store.status = .completed ∧
    (∀ row ∈ linearEnd.store.steps.rows, row.Settled ∧ row.status ≠ .failed) ∧
    ∀ t, (engine linearExecution).Later linearEnd t →
      ∀ row, row ∈ t.store.steps.rows ↔ row ∈ linearEnd.store.steps.rows :=
  ⟨rfl, completed_final rfl reachable_linearEnd rfl⟩

/-- **Planners converge**: a fate decided from what was read is decided again from anything read
later, no two planners create a step with different statuses, and a loop ends once. -/
theorem planners_converge (hv : validateExecutableGraph execution.graph = .ok ())
    {s₁ s₂ t₁ t₂ : State} (hs : (engine execution).Reachable s₁)
    (h₁ : (engine execution).Later s₁ s₂) (h₂ : (engine execution).Later s₂ t₁)
    (h₃ : (engine execution).Later t₁ t₂) :
    (∀ settled settled' candidate, LeadsTo execution.graph settled candidate →
      LeadsTo execution.graph settled' candidate →
      plannerFate execution.graph s₁.store.steps s₂.store.steps settled candidate ≠ .undecidable →
      plannerFate execution.graph t₁.store.steps t₂.store.steps settled' candidate =
        plannerFate execution.graph s₁.store.steps s₂.store.steps settled candidate) ∧
    (∀ p ∈ s₁.processes, ∀ q ∈ t₂.processes, ∀ decisions decisions',
      p.pc = .createSuccessors decisions → q.pc = .createSuccessors decisions' →
      ∀ key, ¬ (key ∈ decisions.toQueue ∧ key ∈ decisions'.toSkip) ∧
        ¬ (key ∈ decisions.toSkip ∧ key ∈ decisions'.toQueue)) ∧
    ∀ loop ∈ deriveLoops execution.graph, ∀ row ∈ s₁.store.steps.rows,
      ∀ row' ∈ s₁.store.steps.rows, row.nodeId = loop.batchNodeId →
      row'.nodeId = loop.batchNodeId → isTerminalStep row.summary = true →
      isTerminalStep row'.summary = true → row.iteration = row'.iteration := by
  obtain ⟨trigger, h⟩ := exists_executable hv
  have hs₂ := hs.later h₁
  have ht₁ := hs₂.later h₂
  have ht₂ := ht₁.later h₃
  have ho₁ := (safe_of_reachable h hs).orderly
  have ho₂ := (safe_of_reachable h ht₂).orderly
  have hext := extends_of_later h hs (h₁.trans (h₂.trans h₃))
  refine ⟨fun settled settled' candidate hl hl' hd => ?_, fun p hp q hq d d' hpd hqd key => ?_,
    fun loop hl row hr row' hr' hn hn' hterm hterm' => ?_⟩
  · rw [plannerFate_eq hl] at hd ⊢
    rw [plannerFate_eq hl']
    exact h.fate_stable (safe_of_reachable h hs₂).orderly ho₁ (safe_of_reachable h ht₁).orderly
      (extends_of_later h hs (h₁.trans h₂)) (extends_of_later h hs₂ (h₂.trans h₃)) hd
  · have hinv := PcInv.mono h ho₁ ho₂ hext ((safe_of_reachable h hs).pc p hp)
    have hinv' := (safe_of_reachable h ht₂).pc q hq
    rw [hpd] at hinv
    rw [hqd] at hinv'
    constructor
    · rintro ⟨hk, hk'⟩
      have := (hinv.1 key hk).2.symm.trans (hinv'.2 key hk').2
      cases this
    · rintro ⟨hk, hk'⟩
      have := (hinv.2 key hk).2.symm.trans (hinv'.1 key hk').2
      cases this
  · exact Executable.ends_unique ho₁ hl ⟨row, hr, by rw [← hn], hterm⟩
      ⟨row', hr', by rw [← hn'], hterm'⟩

theorem planners_converge_linear :
    let table := linearEnd.store.steps
    plannerFate linearExecution.graph table table ⟨"start", 0⟩ ⟨"work", 0⟩ = .queued ∧
    ∀ t, (engine linearExecution).Later linearEnd t →
      plannerFate linearExecution.graph t.store.steps t.store.steps ⟨"start", 0⟩ ⟨"work", 0⟩ =
        .queued := by
  have hleads : LeadsTo linearExecution.graph ⟨"start", 0⟩ ⟨"work", 0⟩ :=
    ⟨⟨"start", "work", 0, 0, false⟩, List.mem_singleton_self _, rfl⟩
  refine ⟨rfl, fun t ht => ?_⟩
  exact (@planners_converge linearExecution rfl _ _ _ _ reachable_linearEnd (.refl _) ht
    (.refl _)).1 _ _ _ hleads hleads (by decide)

end Results

end N8n.Engine
