import N8n.Engine.Safety

/-!
# Progress of an execution

An execution does not get stuck: once no message is in flight, no handler threw and every claimed
step has recorded its outcome, the execution is finished. Whatever an execution still has to do is
in the hands of a message: a message that is not acknowledged yet, and that every handler working
on it will act on.

## Main definitions

* `RowChange`: how one operation of a handler changes a row
* `Announced`, `Awaits`: a message is published or about to be, and will be acted on
* `Tracked`: the messages are about rows that exist
* `Driven`: everything left to do awaits a message

## Main results

* `rowChange_of_new`: every change of a row is announced
* `Awaits.next`: a message is acted on before it is acknowledged
* `driven_of_reachable`: in every reachable state everything left to do awaits a message
* `finished_of_quiescent`: an execution with no message in flight is finished
-/

namespace N8n.Engine

open StepTable

/-! ## How a row changes -/

/-- The handler goes on to publish the message. -/
def Announces (result : Result) (message : Message) : Prop :=
  ∃ messages finish, result.next = .continue (.announce messages finish) ∧ message ∈ messages

/-- How one operation of a handler makes a row that was not in the table before. -/
inductive RowChange (table : StepTable) (result : Result) (row : StepRecord) : Prop
  | queued (fresh : table.nextId ≤ row.id) (status : row.status = .queued)
      (allowed : table.hasFailedSteps = false) (announced : Announces result (.stepReady row.id))
  | running (status : row.status = .running)
  | settled (settled : row.Settled) (status : row.status ≠ .cancelled)
      (announced : result.next = .throw ∨ Announces result (.stepSettled row.id))
  | cancelled (status : row.status = .cancelled) (failed : table.hasFailedSteps = true)

section Changes

variable {table : StepTable}

theorem StepTable.exists_updated {rows : List StepRecord} {cond : StepRecord → Bool}
    {set : StepRecord → StepRecord} {row : StepRecord}
    (hr : row ∈ rows.map fun row => if cond row then set row else row) (hnew : row ∉ rows) :
    ∃ old ∈ rows, cond old = true ∧ set old = row := by
  obtain ⟨old, ho, he⟩ := List.mem_map.mp hr
  split_ifs at he with hc
  · exact ⟨old, ho, hc, he⟩
  · exact absurd (he ▸ ho) hnew

/-- The update of one running row reports that it took place. -/
theorem StepTable.countP_running {id : ℕ} {row : StepRecord} (hr : row ∈ table.rows)
    (hi : row.id = id) (hs : row.status = .running) :
    (table.rows.countP fun row => row.id = id ∧ row.status = .running) = 1 := by
  refine le_antisymm ?_ (List.countP_pos_iff.mpr ⟨row, hr, by simp [hi, hs]⟩)
  rw [List.countP_eq_length_filter]
  have hsub : (table.rows.filter fun row => row.id = id ∧ row.status = .running) ⊆ [row] := by
    intro other ho
    obtain ⟨ho, hc⟩ := List.mem_filter.mp ho
    have hoi : other.id = id := (of_decide_eq_true hc).1
    rw [eq_of_id ho hr (hoi.trans hi.symm)]
    exact List.mem_singleton_self row
  exact (List.subperm_of_subset (table.nodup_rows.filter _) hsub).length_le

end Changes

section Handlers

variable {execution : ExecutionRecord} {trigger : GraphNode}
  (h : Executable execution.graph trigger) {store : Store} {row : StepRecord}

include h

theorem rowChange_createTrigger (outcome : Except StepError StepSlots)
    (hr : row ∈ (advance execution outcome store .createTrigger).store.steps.rows)
    (hnew : row ∉ store.steps.rows) :
    RowChange store.steps (advance execution outcome store .createTrigger) row := by
  simp only [advance, h.findTriggerNode] at hr ⊢
  set records : List NewStepRecord :=
    [⟨⟨trigger.id, 0⟩, .completed (execution.triggerOutputs.getD [])⟩] with hrecords
  obtain ⟨hrows, -, hcreated, -⟩ := store.steps.exists_created records
  have hmem : row ∈ (store.steps.createSteps records).2 := by
    rw [hrows] at hr
    exact (List.mem_append.mp hr).resolve_left hnew
  have hform : ∀ row ∈ (store.steps.createSteps records).2,
      row.toStepKey = ⟨trigger.id, 0⟩ ∧ row.status = .completed := by
    intro row hr
    obtain ⟨-, record, hrec, hrow⟩ := hcreated row hr
    rw [List.mem_singleton.mp hrec] at hrow
    rw [hrow]
    exact ⟨rfl, rfl⟩
  have hstatus := (hform row hmem).2
  refine .settled (by simp [StepRecord.Settled, hstatus, isSettledStatus]) (by simp [hstatus]) ?_
  cases hc : (store.steps.createSteps records).2 with
  | nil => exact .inl rfl
  | cons first rest =>
    have hfirst : first ∈ (store.steps.createSteps records).2 := hc ▸ List.mem_cons_self
    have heq : row = first := by
      refine (store.steps.createSteps records).1.eq_of_key ?_ ?_ ?_
      · exact hrows ▸ List.mem_append_right _ hmem
      · exact hrows ▸ List.mem_append_right _ hfirst
      · rw [(hform row hmem).1, (hform first hfirst).1]
    exact .inr ⟨_, _, rfl, by simp [heq]⟩

omit h in
theorem rowChange_createSuccessors (outcome : Except StepError StepSlots)
    {decisions : SuccessorDecisions}
    (hp : PcInv execution.graph trigger store.steps (.createSuccessors decisions))
    (hr : row ∈ (advance execution outcome store (.createSuccessors decisions)).store.steps.rows)
    (hnew : row ∉ store.steps.rows) :
    RowChange store.steps (advance execution outcome store (.createSuccessors decisions)) row := by
  obtain ⟨hrows, -, hcreated, -⟩ := store.steps.exists_created decisions.records
  simp only [advance] at hr ⊢
  rw [hrows] at hr
  have hmem := (List.mem_append.mp hr).resolve_left hnew
  have hallowed : store.steps.hasFailedSteps = false := by
    by_contra hf
    rw [createSteps_of_failed (by simpa using hf)] at hmem
    cases hmem
  obtain ⟨hfresh, record, hrec, hrow⟩ := hcreated row hmem
  have hann := List.mem_map_of_mem (f := announcement (decisions.toQueue.map stepKeyId)) hmem
  rcases List.mem_append.mp hrec with hrec | hrec
  · obtain ⟨key, hk, rfl⟩ := List.mem_map.mp hrec
    have hkey : row.toStepKey = key := by rw [hrow]; rfl
    have hstatus : row.status = .queued := by rw [hrow]; rfl
    refine .queued hfresh hstatus hallowed ⟨_, _, rfl, ?_⟩
    rwa [announcement, if_pos (by rw [hkey]; exact List.mem_map_of_mem hk)] at hann
  · obtain ⟨key, hk, rfl⟩ := List.mem_map.mp hrec
    have hkey : row.toStepKey = key := by rw [hrow]; rfl
    have hstatus : row.status = .skipped := by rw [hrow]; rfl
    refine .settled (by simp [StepRecord.Settled, hstatus, isSettledStatus]) (by simp [hstatus])
      (.inr ⟨_, _, rfl, ?_⟩)
    -- a step has one fate, so a skipped one is not announced as queued
    have hnq : stepKeyId row.toStepKey ∉ decisions.toQueue.map stepKeyId := by
      rw [hkey]
      intro hq
      obtain ⟨key', hk', he⟩ := List.mem_map.mp hq
      rw [stepKeyId_inj] at he
      have := (hp.1 key' hk').2.symm.trans (he ▸ (hp.2 key hk).2)
      cases this
    rwa [announcement, if_neg hnq] at hann

/-- **Every change of a row is announced.** -/
theorem rowChange_of_new (outcome : Except StepError StepSlots) {pc : Pc}
    (hp : PcInv execution.graph trigger store.steps pc)
    (hr : row ∈ (advance execution outcome store pc).store.steps.rows)
    (hnew : row ∉ store.steps.rows) :
    RowChange store.steps (advance execution outcome store pc) row := by
  have htransition : ∀ f t, (store.transitionStatus f t).1.steps = store.steps := by
    intro f t
    unfold Store.transitionStatus
    split_ifs <;> rfl
  cases pc with
  | claimExecution =>
    simp only [advance, htransition] at hr
    exact absurd hr hnew
  | createTrigger => exact rowChange_createTrigger h outcome hr hnew
  | failExecution =>
    simp only [advance, Store.finishExecution, htransition] at hr
    exact absurd hr hnew
  | cancelQueued =>
    obtain ⟨old, -, -, rfl⟩ := exists_updated hr hnew
    exact .cancelled rfl hp
  | createSuccessors decisions => exact rowChange_createSuccessors outcome hp hr hnew
  | recordOutcome failed =>
    simp only [advance, Store.finishExecution, htransition] at hr
    exact absurd hr hnew
  | claimStep stepId =>
    simp only [advance, claimStep] at hr
    split_ifs at hr
    · exact absurd hr hnew
    · obtain ⟨old, -, -, rfl⟩ := exists_updated hr hnew
      exact .running rfl
  | recordStep stepId outcome =>
    cases outcome with
    | ok outputs =>
      obtain ⟨old, ho, hc, rfl⟩ := exists_updated hr hnew
      obtain ⟨hid, hs⟩ := of_decide_eq_true hc
      refine .settled rfl (by simp) (.inr ⟨[.stepSettled stepId], false, ?_, by simp [hid]⟩)
      have hwon : (store.steps.completeStep stepId outputs).2 = true :=
        decide_eq_true (countP_running ho hid hs)
      simp only [advance, hwon, if_true]
    | error error =>
      obtain ⟨old, ho, hc, rfl⟩ := exists_updated hr hnew
      obtain ⟨hid, hs⟩ := of_decide_eq_true hc
      refine .settled rfl (by simp) (.inr ⟨[.stepSettled stepId], false, ?_, by simp [hid]⟩)
      have hwon : (store.steps.failStep stepId error).2 = true :=
        decide_eq_true (countP_running ho hid hs)
      simp only [advance, hwon, if_true]
  | announce messages finish => cases messages <;> exact absurd hr hnew
  | _ => exact absurd hr hnew

end Handlers

/-! ## Messages in flight -/

def Pc.toAnnounce : Pc → List Message
  | .announce messages _ => messages
  | _ => []

/-- The message is published, or a handler is about to publish it. -/
def Announced (s : State) (m : Message) : Prop :=
  m ∈ s.sent ∨ ∃ p ∈ s.processes, m ∈ p.pc.toAnnounce

/-- The message is announced and not acknowledged, and every handler working on it is at a good
point. -/
structure Awaits (s : State) (m : Message) (good : Pc → Prop) : Prop where
  not_acked : m ∉ s.acked
  good : ∀ p ∈ s.processes, p.message = m → good p.pc
  announced : Announced s m

/-- The handler goes on to a good point, unless the goal is reached. -/
structure StaysGood (result : Result) (good : Pc → Prop) (goal : Prop) : Prop where
  «continue» : ∀ pc, result.next = .continue pc → good pc ∨ goal
  done : result.next = .done → goal

namespace StaysGood

variable {result : Result} {good : Pc → Prop} {goal : Prop}

theorem go {pc : Pc} (hn : result.next = .continue pc) (hg : good pc) :
    StaysGood result good goal where
  «continue» pc' hpc := by
    obtain rfl := Next.continue.inj (hn.symm.trans hpc)
    exact .inl hg
  done hdone := by simp [hn] at hdone

theorem throw (hn : result.next = .throw) : StaysGood result good goal where
  «continue» pc hpc := by simp [hn] at hpc
  done hdone := by simp [hn] at hdone

theorem met (h : goal) : StaysGood result good goal := ⟨fun _ _ => .inr h, fun _ => h⟩

end StaysGood

section Messages

variable {execution : ExecutionRecord} {s t : State} {m : Message} {p : Process}

/-- What a handler announces is published or still to be published, unless it throws. -/
theorem announced_advance {outcome : Except StepError StepSlots} {store : Store} {pc : Pc}
    (hm : m ∈ pc.toAnnounce) :
    m ∈ (advance execution outcome store pc).published ∨
      ∃ pc', (advance execution outcome store pc).next = .continue pc' ∧ m ∈ pc'.toAnnounce := by
  cases pc with
  | announce messages finish =>
    cases messages with
    | nil => cases hm
    | cons message messages =>
      rcases List.mem_cons.mp hm with rfl | hm
      · exact .inl (List.mem_singleton_self _)
      · exact .inr ⟨_, rfl, hm⟩
  | _ => cases hm

theorem Announced.next (h : Announced s m) {e : Event} (hn : s.next execution e = some t)
    (hthrew : t.threw = false) : Announced t m := by
  rcases next_cases hn with ⟨m', -, rfl⟩ | ⟨p, outcome, hmove⟩ | ⟨hthrew', -⟩
  · rcases h with h | ⟨q, hq, h⟩
    · exact .inl h
    · exact .inr ⟨q, List.mem_append_left _ hq, h⟩
  · rcases h with h | ⟨q, hq, h⟩
    · exact .inl (hmove.sent ▸ List.mem_append_left _ h)
    · rcases hmove.before q hq with rfl | hq
      · rcases announced_advance h with h | ⟨pc, hnext, h⟩
        · exact .inl (hmove.sent ▸ List.mem_append_right _ h)
        · exact .inr ⟨_, hmove.moved pc hnext, h⟩
      · exact .inr ⟨q, hq, h⟩
  · simp [hthrew'] at hthrew

/-- What a step newly announces is announced. -/
theorem Announces.announced {result : Result} (h : Announces result m)
    (hmove : Moved s t p result) : Announced t m := by
  obtain ⟨messages, finish, hnext, hm⟩ := h
  exact .inr ⟨_, hmove.moved _ hnext, hm⟩

/-- **A message is acted on before it is acknowledged**: if the handlers working on it stay at good
points until the goal is reached, then either it is reached or the message still waits. -/
theorem Awaits.next {good good' : Pc → Prop} {goal : Prop} (h : Awaits s m good) {e : Event}
    (hn : s.next execution e = some t) (hthrew : t.threw = false) (hstart : good' m.handler)
    (hkeep : ∀ pc, good pc → good' pc)
    (hmove : ∀ p outcome, p ∈ s.processes → good p.pc →
      Moved s t p (advance execution outcome s.store p.pc) →
      StaysGood (advance execution outcome s.store p.pc) good' goal) :
    goal ∨ Awaits t m good' := by
  have hann := h.announced.next hn hthrew
  rcases next_cases hn with ⟨m', -, rfl⟩ | ⟨p, outcome, hmoved⟩ | ⟨hthrew', -⟩
  · refine .inr ⟨h.not_acked, fun q hq hqm => ?_, hann⟩
    rcases List.mem_append.mp hq with hq | hq
    · exact hkeep _ (h.good q hq hqm)
    · rw [List.mem_singleton] at hq
      subst hq
      obtain rfl : m' = m := hqm
      exact hstart
  · by_contra hnot
    obtain ⟨hgoal, hwait⟩ := not_or.mp hnot
    refine hwait ⟨fun hacked => ?_, fun q hq hqm => ?_, hann⟩
    · rcases (hmoved.acked m).mp hacked with hacked | ⟨hdone, hpm⟩
      · exact h.not_acked hacked
      · have hgood := h.good p hmoved.mem hpm.symm
        exact hgoal ((hmove p outcome hmoved.mem hgood hmoved).done hdone)
    · rcases hmoved.after q hq with hq | ⟨pc, hnext, rfl⟩
      · exact hkeep _ (h.good q hq hqm)
      · have hgood := h.good p hmoved.mem hqm
        exact ((hmove p outcome hmoved.mem hgood hmoved).continue pc hnext).resolve_right hgoal
  · simp [hthrew'] at hthrew

end Messages

/-! ## Messages are about rows -/

/-- The messages of a state are about rows of its table. -/
structure Tracked (s : State) : Prop where
  acked_sent : ∀ m ∈ s.acked, m ∈ s.sent
  process_sent : ∀ p ∈ s.processes, p.message ∈ s.sent
  settled : ∀ id, Announced s (.stepSettled id) →
    ∃ row ∈ s.store.steps.rows, row.id = id ∧ row.Settled
  ready : ∀ id, Announced s (.stepReady id) → id < s.store.steps.nextId

section Tracked

variable {execution : ExecutionRecord} {trigger : GraphNode}
  (h : Executable execution.graph trigger) {s t : State}

theorem tracked_initial : Tracked .initial where
  acked_sent := fun m hm => absurd hm (List.not_mem_nil (a := m))
  process_sent := fun p hp => absurd hp (List.not_mem_nil (a := p))
  settled := by
    rintro id (hm | ⟨p, hp, -⟩)
    · simp [State.initial] at hm
    · simp [State.initial] at hp
  ready := by
    rintro id (hm | ⟨p, hp, -⟩)
    · simp [State.initial] at hm
    · simp [State.initial] at hp

/-- What a handler newly announces is about a row it has just written. -/
theorem newly_announced {outcome : Except StepError StepSlots} {store : Store} {pc pc' : Pc}
    {m : Message} (hn : (advance execution outcome store pc).next = .continue pc')
    (hm : m ∈ pc'.toAnnounce) (hold : m ∉ pc.toAnnounce) :
    (∃ row ∈ (advance execution outcome store pc).store.steps.rows,
      m = .stepSettled row.id ∧ row.Settled) ∨
    ∃ row ∈ (advance execution outcome store pc).store.steps.rows, m = .stepReady row.id := by
  cases pc with
  | createTrigger =>
    simp only [advance] at hn ⊢
    split at hn
    · cases hn
    · rename_i trigger _
      obtain ⟨hrows, -, hcreated, -⟩ := store.steps.exists_created
        [⟨⟨trigger.id, 0⟩, .completed (execution.triggerOutputs.getD [])⟩]
      split at hn
      · cases hn
      · rename_i first rest hfirst
        cases hn
        have hmem : first ∈ (store.steps.createSteps
            [⟨⟨trigger.id, 0⟩, .completed (execution.triggerOutputs.getD [])⟩]).2 :=
          hfirst ▸ List.mem_cons_self
        obtain ⟨-, record, hrec, hrow⟩ := hcreated first hmem
        rw [List.mem_singleton.mp hrec] at hrow
        refine .inl ⟨first, hrows ▸ List.mem_append_right _ hmem, List.mem_singleton.mp hm, ?_⟩
        rw [hrow]
        rfl
  | createSuccessors decisions =>
    obtain ⟨hrows, -, hcreated, -⟩ := store.steps.exists_created decisions.records
    simp only [advance] at hn ⊢
    cases hn
    obtain ⟨row, hr, rfl⟩ := List.mem_map.mp hm
    have hin := List.mem_append_right store.steps.rows hr
    rw [← hrows] at hin
    unfold announcement
    split_ifs with hq
    · exact .inr ⟨row, hin, rfl⟩
    · refine .inl ⟨row, hin, rfl, ?_⟩
      obtain ⟨-, record, hrec, hrow⟩ := hcreated row hr
      rcases List.mem_append.mp hrec with hrec | hrec
      · obtain ⟨key, hk, rfl⟩ := List.mem_map.mp hrec
        have hkey : row.toStepKey = key := by rw [hrow]; rfl
        exact absurd (hkey ▸ List.mem_map_of_mem hk) hq
      · obtain ⟨key, hk, rfl⟩ := List.mem_map.mp hrec
        rw [hrow]
        rfl
  | recordStep stepId outcome =>
    simp only [advance] at hn ⊢
    split_ifs at hn with hwon
    cases hn
    left
    -- the row that was running is the one recorded
    have hrun : (store.steps.rows.countP fun row => row.id = stepId ∧ row.status = .running) = 1 := by
      cases outcome <;> exact of_decide_eq_true hwon
    obtain ⟨row, hr, hc⟩ := List.countP_pos_iff.mp (hrun ▸ Nat.one_pos)
    have hid := (of_decide_eq_true hc).1
    obtain rfl := List.mem_singleton.mp hm
    cases outcome with
    | ok outputs =>
      refine ⟨{ row with status := .completed, outputs := some outputs }, ?_, by rw [← hid], rfl⟩
      exact List.mem_map.mpr ⟨row, hr, if_pos hc⟩
    | error error =>
      refine ⟨{ row with status := .failed, error := some error }, ?_, by rw [← hid], rfl⟩
      exact List.mem_map.mpr ⟨row, hr, if_pos hc⟩
  | announce messages finish =>
    cases messages with
    | nil =>
      simp only [advance] at hn
      split_ifs at hn
      cases hn
      cases hm
    | cons message messages =>
      cases hn
      exact absurd (List.mem_cons_of_mem _ hm) hold
  | _ =>
    exfalso
    simp only [advance] at hn
    repeat' split at hn
    all_goals first | (cases hn; cases hm) | cases hn

include h

theorem Tracked.next (hs : Tracked s) (hsafe : Safe execution.graph trigger s) {e : Event}
    (hn : s.next execution e = some t) : Tracked t := by
  have hext := (hsafe.next h hn).2
  have hkeep : ∀ id, (∃ row ∈ s.store.steps.rows, row.id = id ∧ row.Settled) →
      ∃ row ∈ t.store.steps.rows, row.id = id ∧ row.Settled := by
    rintro id ⟨row, hr, hid, hset⟩
    exact ⟨row, hext.settled hr hset, hid, hset⟩
  rcases next_cases hn with ⟨m, hm, rfl⟩ | ⟨p, outcome, hmove⟩ | ⟨-, -, hsent, hacked, hproc⟩
  · have hann : ∀ m', Announced { s with processes := s.processes ++ [⟨m, m.handler⟩] } m' →
        Announced s m' := by
      rintro m' (hm' | ⟨q, hq, hm'⟩)
      · exact .inl hm'
      · rcases List.mem_append.mp hq with hq | hq
        · exact .inr ⟨q, hq, hm'⟩
        · rw [List.mem_singleton.mp hq] at hm'
          cases m <;> cases hm'
    refine ⟨hs.acked_sent, fun q hq => ?_, fun id hid => hs.settled id (hann _ hid),
      fun id hid => hs.ready id (hann _ hid)⟩
    rcases List.mem_append.mp hq with hq | hq
    · exact hs.process_sent q hq
    · rw [List.mem_singleton.mp hq]
      exact hm
  · have hold : ∀ m, m ∈ s.sent → m ∈ t.sent := fun m hm =>
      hmove.sent ▸ List.mem_append_left _ hm
    have hann : ∀ m, Announced t m → Announced s m ∨
        (∃ row ∈ t.store.steps.rows, m = .stepSettled row.id ∧ row.Settled) ∨
        ∃ row ∈ t.store.steps.rows, m = .stepReady row.id := by
      rintro m (hm | ⟨q, hq, hm⟩)
      · rw [hmove.sent] at hm
        rcases List.mem_append.mp hm with hm | hm
        · exact .inl (.inl hm)
        · -- only an announcing handler publishes
          refine .inl (.inr ⟨p, hmove.mem, ?_⟩)
          generalize p.pc = pc at hm ⊢
          cases pc with
          | announce messages finish =>
            cases messages with
            | nil => cases hm
            | cons message messages => rw [List.mem_singleton.mp hm]; exact List.mem_cons_self
          | createTrigger => simp only [advance] at hm; split at hm <;> cases hm
          | _ => cases hm
      · rcases hmove.after q hq with hq | ⟨pc, hnext, rfl⟩
        · exact .inl (.inr ⟨q, hq, hm⟩)
        · by_cases hin : m ∈ p.pc.toAnnounce
          · exact .inl (.inr ⟨p, hmove.mem, hin⟩)
          · rw [hmove.store]
            exact .inr (newly_announced hnext hm hin)
    refine ⟨fun m hm => ?_, fun q hq => ?_, fun id hid => ?_, fun id hid => ?_⟩
    · rcases (hmove.acked m).mp hm with hm | ⟨-, rfl⟩
      · exact hold m (hs.acked_sent m hm)
      · exact hold _ (hs.process_sent p hmove.mem)
    · rcases hmove.after q hq with hq | ⟨pc, -, rfl⟩
      · exact hold _ (hs.process_sent q hq)
      · exact hold _ (hs.process_sent p hmove.mem)
    · rcases hann _ hid with hid | ⟨row, hr, he, hset⟩ | ⟨row, -, he⟩
      · exact hkeep id (hs.settled id hid)
      · exact ⟨row, hr, (Message.stepSettled.inj he).symm, hset⟩
      · cases he
    · rcases hann _ hid with hid | ⟨row, -, he, -⟩ | ⟨row, hr, he⟩
      · exact (hs.ready id hid).trans_le hext.nextId
      · cases he
      · rw [Message.stepReady.inj he]
        exact t.store.steps.id_lt row hr
  · have hann : ∀ m, Announced t m → Announced s m := by
      rintro m (hm | ⟨q, hq, hm⟩)
      · exact .inl (hsent ▸ hm)
      · exact .inr ⟨q, hproc q hq, hm⟩
    refine ⟨fun m hm => ?_, fun q hq => ?_, fun id hid => hkeep id (hs.settled id (hann _ hid)),
      fun id hid => (hs.ready id (hann _ hid)).trans_le hext.nextId⟩
    · rw [hsent]
      exact hs.acked_sent m (hacked ▸ hm)
    · rw [hsent]
      exact hs.process_sent q (hproc q hq)

end Tracked

/-! ## What is left to do -/

/-- The execution has a final status. -/
def Over (s : State) : Prop := s.store.status = .completed ∨ s.store.status = .failed

/-- A handler of the failed step's message is on its way to end the execution. -/
def FailGood (s : State) (row : StepRecord) : Pc → Prop
  | .loadSettledStep stepId => stepId = row.id
  | .loadSettledExecution step => step = row
  | .failExecution => True
  | .cancelQueued => Over s
  | _ => False

/-- A handler of the source's message is on its way to create the due step `key`. -/
def DueGood (graph : WorkflowGraph) (trigger : GraphNode) (table : StepTable) (row : StepRecord)
    (key : StepKey) : Pc → Prop
  | .loadSettledStep stepId => stepId = row.id
  | .loadSettledExecution step => step = row
  | .checkFailed step => step = row
  | .loadTerminals step => step = row
  | .loadSteps step terminalIterations => step = row ∧ ∃ earlier,
      Orderly graph trigger earlier ∧ earlier.Extends table ∧
      terminalIterations = planTerminals graph earlier row.toStepKey ∧
      Due graph trigger earlier key
  | .createSuccessors decisions => key ∈ decisions.toQueue ∨ key ∈ decisions.toSkip
  | _ => False

/-- A handler of a settled step's message is on its way to end the execution, once it is
complete. -/
def CompleteGood (row : StepRecord) : Pc → Prop
  | .loadSettledStep stepId => stepId = row.id
  | .loadSettledExecution step => step = row
  | .checkFailed step => step = row
  | .loadTerminals step => step = row
  | .loadSteps step _ => step = row
  | .failExecution => True
  | .countExpected => True
  | .countSettled _ => True
  | .checkOutcome => True
  | .recordOutcome _ => True
  | _ => False

/-- Everything left to do awaits a message. -/
structure Driven (graph : WorkflowGraph) (trigger : GraphNode) (s : State) : Prop where
  fresh : s.store.status = .queued → s.store.steps.rows = [] ∧
    (∀ m ∈ s.sent, m = .executionEnqueued) ∧ (∀ p ∈ s.processes, p.pc = .claimExecution) ∧
    Message.executionEnqueued ∈ s.sent ∧ Message.executionEnqueued ∉ s.acked
  start : s.store.status ≠ .queued →
    (∃ row ∈ s.store.steps.rows, row.toStepKey = ⟨trigger.id, 0⟩) ∨
      ∃ p ∈ s.processes, p.pc = .createTrigger
  queued : ∀ row ∈ s.store.steps.rows, row.status = .queued →
    s.store.steps.hasFailedSteps = true ∨ Awaits s (.stepReady row.id) (· = .claimStep row.id)
  cancelled : ∀ row ∈ s.store.steps.rows, row.status = .cancelled →
    s.store.steps.hasFailedSteps = true
  failed : ∀ row ∈ s.store.steps.rows, row.status = .failed →
    (Over s ∧ ∀ row' ∈ s.store.steps.rows, row'.status ≠ .queued) ∨
      Awaits s (.stepSettled row.id) (FailGood s row)
  due : ∀ key, Due graph trigger s.store.steps key →
    ((∃ row ∈ s.store.steps.rows, row.toStepKey = key) ∨ s.store.steps.hasFailedSteps = true ∨
      Over s) ∨
    ∃ row ∈ s.store.steps.rows, row.Settled ∧
      Considers graph (deriveLoops graph) row.toStepKey s.store.steps.view key ∧
      Awaits s (.stepSettled row.id) (DueGood graph trigger s.store.steps row key)
  complete : Complete graph trigger s.store.steps →
    (s.store.steps.hasFailedSteps = true ∨ Over s) ∨
    ∃ row ∈ s.store.steps.rows, row.Settled ∧
      Awaits s (.stepSettled row.id) (CompleteGood row)

section Driven

variable {execution : ExecutionRecord} {trigger : GraphNode} {s t : State} {p : Process}

/-- A message that was not published before is not being worked on. -/
theorem Awaits.fresh {result : Result} {m : Message} (htracked : Tracked s)
    (hmove : Moved s t p result) (hm : m ∉ s.sent) (hann : Announced t m) (good : Pc → Prop) :
    Awaits t m good := by
  have hpm : p.message ≠ m := fun he => hm (he ▸ htracked.process_sent p hmove.mem)
  refine ⟨fun hacked => ?_, fun q hq hqm => ?_, hann⟩
  · rcases (hmove.acked m).mp hacked with hacked | ⟨-, he⟩
    · exact hm (htracked.acked_sent m hacked)
    · exact hpm he.symm
  · rcases hmove.after q hq with hq | ⟨pc, -, rfl⟩
    · exact absurd (hqm ▸ htracked.process_sent q hq) hm
    · exact absurd hqm hpm

variable (h : Executable execution.graph trigger) {row : StepRecord} {e : Event}
  {table earlier : StepTable}

include h

section Safe

variable (hsafe : Safe execution.graph trigger s)
include hsafe

/-- A row that settles in a step is announced, and its message is not being worked on. -/
theorem awaits_of_newly_settled (htracked : Tracked s) (hn : s.next execution e = some t)
    (hthrew : t.threw = false) (hr : row ∈ t.store.steps.rows) (hs : row.Settled)
    (hnew : row ∉ s.store.steps.rows) :
    (row.status = .cancelled ∧ s.store.steps.hasFailedSteps = true) ∨
      (row.status ≠ .cancelled ∧ ∀ good, Awaits t (.stepSettled row.id) good) := by
  have hext := (hsafe.next h hn).2
  rcases next_cases hn with ⟨m, -, rfl⟩ | ⟨p, outcome, hmove⟩ | ⟨hthrew', -⟩
  · exact absurd hr hnew
  · have hr' := hr
    rw [hmove.store] at hr'
    cases rowChange_of_new h outcome (hsafe.pc p hmove.mem) hr' hnew with
    | queued fresh status => simp [StepRecord.Settled, status, isSettledStatus] at hs
    | running status => simp [StepRecord.Settled, status, isSettledStatus] at hs
    | cancelled status failed => exact .inl ⟨status, failed⟩
    | settled settled status announced =>
      rcases announced with hthrow | hann
      · have := hmove.threw.mpr (.inr hthrow)
        simp [hthrew] at this
      · refine .inr ⟨status, Awaits.fresh htracked hmove (fun hm => ?_) (hann.announced hmove)⟩
        -- the messages published before are about rows that had settled before
        obtain ⟨old, ho, hid, hset⟩ := htracked.settled row.id (.inl hm)
        exact hnew (t.store.steps.eq_of_id (hext.settled ho hset) hr hid ▸ ho)
  · simp [hthrew'] at hthrew

/-- A row that is queued was queued before, or a planner has just created it. -/
theorem awaits_of_newly_queued (htracked : Tracked s) (hn : s.next execution e = some t)
    (hthrew : t.threw = false) (hr : row ∈ t.store.steps.rows) (hs : row.status = .queued)
    (hnew : row ∉ s.store.steps.rows) :
    s.store.steps.hasFailedSteps = false ∧ ∀ good, Awaits t (.stepReady row.id) good := by
  rcases next_cases hn with ⟨m, -, rfl⟩ | ⟨p, outcome, hmove⟩ | ⟨hthrew', -⟩
  · exact absurd hr hnew
  · rw [hmove.store] at hr
    cases rowChange_of_new h outcome (hsafe.pc p hmove.mem) hr hnew with
    | queued fresh status allowed announced =>
      refine ⟨allowed, Awaits.fresh htracked hmove (fun hm => ?_) (announced.announced hmove)⟩
      exact absurd (htracked.ready row.id (.inl hm)) (not_lt.mpr fresh)
    | running status => simp [hs] at status
    | cancelled status => simp [hs] at status
    | settled settled => simp [StepRecord.Settled, hs, isSettledStatus] at settled
  · simp [hthrew'] at hthrew

theorem Over.next (ho : Over s) (hn : s.next execution e = some t) : Over t := by
  rcases next_cases hn with ⟨m, -, rfl⟩ | ⟨p, outcome, hmove⟩ | ⟨-, hstore, -⟩
  · exact ho
  · unfold Over
    rw [hmove.store]
    rcases advance_status h outcome (hsafe.pc p hmove.mem) with he | ⟨hq, -⟩ | ⟨he, -⟩ | ⟨he, -⟩
    · rw [he]
      exact ho
    · rcases ho with ho | ho <;> simp [hq] at ho
    · exact .inr he
    · exact .inl he
  · unfold Over
    rw [hstore]
    exact ho

omit h in
theorem Driven.over_of_not_running (hd : Driven execution.graph trigger s)
    (hr : row ∈ s.store.steps.rows) (hne : s.store.status ≠ .running) : Over s := by
  cases hst : s.store.status with
  | queued => rw [(hd.fresh hst).1] at hr; cases hr
  | running => exact absurd hst hne
  | completed => exact .inl hst
  | failed => exact .inr hst
  | cancelled => exact absurd hst hsafe.not_cancelled

omit h in
/-- Recording an outcome ends the execution. -/
theorem over_of_finishExecution (hd : Driven execution.graph trigger s)
    (hr : row ∈ s.store.steps.rows) {status : ExecutionStatus}
    (hfinal : status = .completed ∨ status = .failed)
    (ht : t.store = (s.store.finishExecution status).1) : Over t := by
  unfold Over
  rw [ht, Store.finishExecution, Store.transitionStatus]
  split_ifs with hrun
  · exact hfinal
  · exact hd.over_of_not_running hsafe hr hrun

end Safe

/-- The planner of a source of a due step decides to create it, unless it exists. -/
theorem planned_of_due (hoe : Orderly execution.graph trigger earlier) (hee : earlier.Extends table)
    {settled key : StepKey}
    (hc : Considers execution.graph (deriveLoops execution.graph) settled table.view key)
    (hdue : Due execution.graph trigger earlier key) (hnone : table.view (stepKeyId key) = none) :
    let decisions :=
      planSuccessors execution.graph settled (planTerminals execution.graph earlier settled) table
    key ∈ decisions.toQueue ∨ key ∈ decisions.toSkip := by
  have hd : fateFrom execution.graph earlier earlier key ≠ .undecidable := by
    rcases hdue.2 with hf | hf <;> simp [hf]
  have hfate : fateFrom execution.graph earlier table key =
      fateFrom execution.graph earlier earlier key :=
    h.fate_stable hoe hoe hoe (.refl earlier) hee hd
  simp only [planSuccessors_eq]
  rcases hdue.2 with hf | hf
  · exact .inl (mem_toQueue.mpr ⟨hc, hnone, hfate.trans hf⟩)
  · exact .inr (mem_toSkip.mpr ⟨hc, hnone, hfate.trans hf⟩)

/-- In a complete table there is nothing to create. -/
theorem planSuccessors_of_complete (ho : Orderly execution.graph trigger table)
    (hoe : Orderly execution.graph trigger earlier) (hee : earlier.Extends table)
    (hc : Complete execution.graph trigger table) (hr : row ∈ table.rows) (hs : row.Settled) :
    let decisions := planSuccessors execution.graph row.toStepKey
      (planTerminals execution.graph earlier row.toStepKey) table
    decisions.toQueue = [] ∧ decisions.toSkip = [] := by
  have hvalid := planSuccessors_valid h ho hoe hee hr hs
  have habsent : ∀ key, table.view (stepKeyId key) = none →
      ¬ Admissible execution.graph trigger table key := by
    intro key hnone ha
    obtain ⟨row', hr', hk⟩ := Executable.Complete.exists_row h ho hc ha
    exact view_eq_none.mp hnone row' hr' hk
  simp only [List.eq_nil_iff_forall_not_mem]
  refine ⟨fun key hk => ?_, fun key hk => ?_⟩
  · have hnone := by
      rw [planSuccessors_eq] at hk
      exact (mem_toQueue.mp hk).2.1
    exact habsent key hnone (hvalid.1 key hk).1
  · have hnone := by
      rw [planSuccessors_eq] at hk
      exact (mem_toSkip.mp hk).2.1
    exact habsent key hnone (hvalid.2 key hk).1

omit h in
/-- What the planner of a settled row considers does not change. -/
theorem considers_mono {table table' : StepTable} (hext : table.Extends table')
    (hr : row ∈ table.rows) (hs : row.Settled) {key : StepKey}
    (hc : Considers execution.graph (deriveLoops execution.graph) row.toStepKey table.view key) :
    Considers execution.graph (deriveLoops execution.graph) row.toStepKey table'.view key := by
  obtain ⟨edge, he, hdec, hk⟩ := hc
  rw [decidesEdge_iff hr] at hdec
  exact ⟨edge, he, (decidesEdge_iff (hext.settled hr hs)).mpr hdec, hk⟩

/-! ## Each obligation waits until it is met -/

section Step

variable (hsafe : Safe execution.graph trigger s) (htracked : Tracked s)
  (hd : Driven execution.graph trigger s) (hn : s.next execution e = some t)
  (hthrew : t.threw = false)

include hsafe hn

theorem status_ne_queued (hq : s.store.status ≠ .queued) : t.store.status ≠ .queued := by
  rcases next_cases hn with ⟨m, -, rfl⟩ | ⟨p, outcome, hmove⟩ | ⟨-, hstore, -⟩
  · exact hq
  · rw [hmove.store]
    rcases advance_status h outcome (hsafe.pc p hmove.mem) with he | ⟨hs, -⟩ | ⟨he, -⟩ | ⟨he, -⟩
    · rwa [he]
    · exact absurd hs hq
    all_goals simp [he]
  · rwa [hstore]

include hd hthrew

theorem fresh_next (hq : t.store.status = .queued) : t.store.steps.rows = [] ∧
    (∀ m ∈ t.sent, m = .executionEnqueued) ∧ (∀ p ∈ t.processes, p.pc = .claimExecution) ∧
    Message.executionEnqueued ∈ t.sent ∧ Message.executionEnqueued ∉ t.acked := by
  have hs : s.store.status = .queued := by
    by_contra hs
    exact status_ne_queued h hsafe hn hs hq
  obtain ⟨hrows, hsent, hproc, hin, hacked⟩ := hd.fresh hs
  rcases next_cases hn with ⟨m, hm, rfl⟩ | ⟨p, outcome, hmove⟩ | ⟨hthrew', -⟩
  · refine ⟨hrows, hsent, fun q hq => ?_, hin, hacked⟩
    rcases List.mem_append.mp hq with hq | hq
    · exact hproc q hq
    · rw [List.mem_singleton.mp hq, hsent m hm]
      rfl
  · -- the only handlers so far claim the execution, and a claim starts it
    have hpc := hproc p hmove.mem
    have hstore := hmove.store
    rw [hpc] at hstore
    simp only [advance, Store.transitionStatus, hs, if_true] at hstore
    simp [hstore] at hq
  · simp [hthrew'] at hthrew

theorem start_next (hq : t.store.status ≠ .queued) :
    (∃ row ∈ t.store.steps.rows, row.toStepKey = ⟨trigger.id, 0⟩) ∨
      ∃ p ∈ t.processes, p.pc = .createTrigger := by
  have hext := (hsafe.next h hn).2
  by_cases hs : s.store.status = .queued
  · obtain ⟨-, -, hproc, -⟩ := hd.fresh hs
    rcases next_cases hn with ⟨m, -, rfl⟩ | ⟨p, outcome, hmove⟩ | ⟨hthrew', -⟩
    · exact absurd hs hq
    · refine .inr ⟨_, hmove.moved .createTrigger ?_, rfl⟩
      rw [hproc p hmove.mem]
      simp [advance, Store.transitionStatus, hs]
    · simp [hthrew'] at hthrew
  · rcases hd.start hs with ⟨row, hr, hk⟩ | ⟨q, hq', hpc⟩
    · obtain ⟨row', hr', hk'⟩ := hext.key hr
      exact .inl ⟨row', hr', hk'.trans hk⟩
    · rcases next_cases hn with ⟨m, -, rfl⟩ | ⟨p, outcome, hmove⟩ | ⟨hthrew', -⟩
      · exact .inr ⟨q, List.mem_append_left _ hq', hpc⟩
      · rcases hmove.before q hq' with rfl | hq'
        · left
          have hstore := hmove.store
          have hthrow := mt (hmove.threw.mpr ∘ .inr) (by simp [hthrew])
          rw [hpc] at hstore hthrow
          simp only [advance, h.findTriggerNode] at hstore hthrow
          obtain ⟨hrows, -, hcreated, -⟩ := s.store.steps.exists_created
            [⟨⟨trigger.id, 0⟩, .completed (execution.triggerOutputs.getD [])⟩]
          split at hthrow
          · exact absurd rfl hthrow
          · rename_i first rest hfirst
            have hmem := hfirst ▸ List.mem_cons_self (a := first) (l := rest)
            obtain ⟨-, record, hrec, hrow⟩ := hcreated first hmem
            refine ⟨first, ?_, ?_⟩
            · rw [hstore, hrows]
              exact List.mem_append_right _ hmem
            · rw [hrow, List.mem_singleton.mp hrec]
              rfl
        · exact .inr ⟨q, hq', hpc⟩
      · simp [hthrew'] at hthrew

include htracked

theorem queued_next (hr : row ∈ t.store.steps.rows)
    (hq : row.status = .queued) : t.store.steps.hasFailedSteps = true ∨
      Awaits t (.stepReady row.id) (· = .claimStep row.id) := by
  have hext := (hsafe.next h hn).2
  by_cases hold : row ∈ s.store.steps.rows
  · rcases hd.queued row hold hq with hf | haw
    · exact .inl (hext.hasFailedSteps hf)
    · refine haw.next hn hthrew rfl (fun _ hg => hg) fun p outcome hp hg hmove => ?_
      suffices hgoal : t.store.steps.hasFailedSteps = true from
        .met hgoal
      have hstore := hmove.store
      rw [hg] at hstore
      simp only [advance] at hstore
      by_cases hf : s.store.steps.hasFailedSteps = true
      · exact hext.hasFailedSteps hf
      · -- the claim succeeds, so the row is not queued any more
        simp only [claimStep, hf, if_false, Bool.false_eq_true] at hstore
        have hclaimed : { row with status := .running } ∈ t.store.steps.rows := by
          rw [hstore]
          exact List.mem_map.mpr ⟨row, hold, if_pos (by simp [hq])⟩
        have := t.store.steps.eq_of_id hr hclaimed rfl
        rw [this] at hq
        cases hq
  · exact .inr ((awaits_of_newly_queued h hsafe htracked hn hthrew hr hq hold).2 _)

theorem cancelled_next (hr : row ∈ t.store.steps.rows) (hc : row.status = .cancelled) :
    t.store.steps.hasFailedSteps = true := by
  have hext := (hsafe.next h hn).2
  by_cases hold : row ∈ s.store.steps.rows
  · exact hext.hasFailedSteps (hd.cancelled row hold hc)
  · have hs : row.Settled := by simp [StepRecord.Settled, hc, isSettledStatus]
    rcases awaits_of_newly_settled h hsafe htracked hn hthrew hr hs hold with ⟨-, hf⟩ | ⟨hne, -⟩
    · exact hext.hasFailedSteps hf
    · exact absurd hc hne

theorem failed_next (hr : row ∈ t.store.steps.rows) (hf : row.status = .failed) :
    (Over t ∧ ∀ row' ∈ t.store.steps.rows, row'.status ≠ .queued) ∨
      Awaits t (.stepSettled row.id) (FailGood t row) := by
  have hover := fun ho => Over.next h hsafe ho hn
  have hsettled : row.Settled := by simp [StepRecord.Settled, hf, isSettledStatus]
  by_cases hold : row ∈ s.store.steps.rows
  · have hfailed := hasFailedSteps_iff.mpr ⟨row, hold, hf⟩
    rcases hd.failed row hold hf with ⟨ho, hnone⟩ | haw
    · refine .inl ⟨hover ho, fun row' hr' hq => ?_⟩
      by_cases hold' : row' ∈ s.store.steps.rows
      · exact hnone row' hold' hq
      · have := (awaits_of_newly_queued h hsafe htracked hn hthrew hr' hq hold').1
        simp [hfailed] at this
    · refine haw.next hn hthrew rfl (fun pc hg => ?_) fun p outcome hp hg hmove => ?_
      · cases pc <;> first | exact hg | exact hover hg
      · have hstore := hmove.store
        revert hg hstore
        generalize p.pc = pc
        intro hg hstore
        cases pc with
        | loadSettledStep stepId =>
          obtain rfl : stepId = row.id := hg
          have hload := loadStep_eq_some.mpr ⟨hold, rfl⟩
          simp only [advance, hload]
          exact ⟨fun pc hpc => .inl (by cases hpc; rfl), fun hdone => by cases hdone⟩
        | loadSettledExecution step =>
          obtain rfl : step = row := hg
          simp only [advance, hf, if_true]
          split
          · exact .throw rfl
          · exact ⟨fun pc hpc => .inl (by cases hpc; trivial), fun hdone => by cases hdone⟩
        | failExecution =>
          have ho := over_of_finishExecution hsafe hd hold (.inr rfl) hstore
          exact ⟨fun pc hpc => .inl (by cases hpc; exact ho), fun hdone => by cases hdone⟩
        | cancelQueued =>
          refine .met ⟨hover hg, fun row' hr' hq => ?_⟩
          rw [hstore] at hr'
          obtain ⟨old, -, rfl⟩ := List.mem_map.mp hr'
          split_ifs at hq with hc
          exact hc (by simpa using hq)
        | _ => exact absurd hg id
  · rcases awaits_of_newly_settled h hsafe htracked hn hthrew hr hsettled hold with
      ⟨hc, -⟩ | ⟨-, haw⟩
    · simp [hf] at hc
    · exact .inr (haw _)

theorem due_next {key : StepKey} (hdue : Due execution.graph trigger t.store.steps key) :
    ((∃ row ∈ t.store.steps.rows, row.toStepKey = key) ∨ t.store.steps.hasFailedSteps = true ∨
      Over t) ∨
    ∃ row ∈ t.store.steps.rows, row.Settled ∧
      Considers execution.graph (deriveLoops execution.graph) row.toStepKey
        t.store.steps.view key ∧
      Awaits t (.stepSettled row.id) (DueGood execution.graph trigger t.store.steps row key) := by
  obtain ⟨hsafe', hext⟩ := hsafe.next h hn
  have hgoal : ((∃ row ∈ s.store.steps.rows, row.toStepKey = key) ∨
      s.store.steps.hasFailedSteps = true ∨ Over s) → (∃ row ∈ t.store.steps.rows,
        row.toStepKey = key) ∨ t.store.steps.hasFailedSteps = true ∨ Over t := by
    rintro (⟨row, hr, hk⟩ | hf | ho)
    · obtain ⟨row', hr', hk'⟩ := hext.key hr
      exact .inl ⟨row', hr', hk'.trans hk⟩
    · exact .inr (.inl (hext.hasFailedSteps hf))
    · exact .inr (.inr (Over.next h hsafe ho hn))
  by_cases hold : Due execution.graph trigger s.store.steps key
  · rcases hd.due key hold with hmet | ⟨row, hr, hs, hc, haw⟩
    · exact .inl (hgoal hmet)
    · suffices hwait : ((∃ row ∈ t.store.steps.rows, row.toStepKey = key) ∨
          t.store.steps.hasFailedSteps = true ∨ Over t) ∨ Awaits t (.stepSettled row.id)
            (DueGood execution.graph trigger t.store.steps row key) from
        hwait.imp id fun haw =>
          ⟨row, hext.settled hr hs, hs, considers_mono hext hr hs hc, haw⟩
      refine haw.next hn hthrew rfl (fun pc hg => ?_) fun p outcome hp hg hmove => ?_
      · cases pc with
        | loadSteps step terminalIterations =>
          obtain ⟨he, earlier, hoe, hee, ht, hdue⟩ := hg
          exact ⟨he, earlier, hoe, hee.trans hext, ht, hdue⟩
        | _ => exact hg
      · have hinv := hsafe.pc p hp
        have hstore := hmove.store
        revert hg hstore hinv
        generalize p.pc = pc
        intro hg hinv hstore
        cases pc with
        | loadSettledStep stepId =>
          obtain rfl : stepId = row.id := hg
          have hload := loadStep_eq_some.mpr ⟨hr, rfl⟩
          simp only [advance, hload]
          exact .go rfl rfl
        | loadSettledExecution step =>
          obtain rfl : step = row := hg
          simp only [advance]
          split
          · exact .throw rfl
          · split_ifs with hf hrun hdone
            · have hfailed := hasFailedSteps_iff.mpr ⟨step, hr, hf⟩
              exact .met (hgoal (.inr (.inl hfailed)))
            · have ho := hd.over_of_not_running hsafe hr hrun
              exact .met (hgoal (.inr (.inr ho)))
            · exact .go rfl rfl
            · have hcancelled := StepRecord.cancelled_of_settled hs hf hdone
              have hfailed := hd.cancelled step hr hcancelled
              exact .met (hgoal (.inr (.inl hfailed)))
        | checkFailed step =>
          obtain rfl : step = row := hg
          simp only [advance]
          split_ifs with hf
          · exact .met (hgoal (.inr (.inl hf)))
          · exact .go rfl rfl
        | loadTerminals step =>
          obtain rfl : step = row := hg
          exact .go rfl ⟨rfl, s.store.steps, hsafe.orderly, hext, rfl, hold⟩
        | loadSteps step terminalIterations =>
          obtain ⟨rfl, earlier, hoe, hee, rfl, hdue⟩ := hg
          by_cases hnone : s.store.steps.view (stepKeyId key) = none
          · have hplan := planned_of_due h hoe hee hc hdue hnone
            have hne : ¬ ((planSuccessors execution.graph step.toStepKey
                (planTerminals execution.graph earlier step.toStepKey) s.store.steps).toQueue = [] ∧
                (planSuccessors execution.graph step.toStepKey
                (planTerminals execution.graph earlier step.toStepKey) s.store.steps).toSkip = []) := by
              rintro ⟨hq, hk⟩
              simp [hq, hk] at hplan
            simp only [advance, if_neg hne]
            exact .go rfl hplan
          · obtain ⟨step', hs'⟩ := Option.ne_none_iff_exists'.mp hnone
            obtain ⟨row', hr', hk', -⟩ := view_eq_some.mp hs'
            have hmet := hgoal (.inl ⟨row', hr', hk'⟩)
            exact .met hmet
        | createSuccessors decisions =>
          suffices hmet : (∃ row ∈ t.store.steps.rows, row.toStepKey = key) ∨
              t.store.steps.hasFailedSteps = true ∨ Over t from
            .met hmet
          by_cases hf : s.store.steps.hasFailedSteps = true
          · exact hgoal (.inr (.inl hf))
          · obtain ⟨-, -, -, hcover⟩ := s.store.steps.exists_created decisions.records
            rw [hstore]
            refine .inl ?_
            rcases hg with hk | hk
            · exact hcover (by simpa using hf) ⟨key, .queued⟩
                (List.mem_append_left _ (List.mem_map_of_mem hk))
            · exact hcover (by simpa using hf) ⟨key, .skipped⟩
                (List.mem_append_right _ (List.mem_map_of_mem hk))
        | _ => exact absurd hg id
  · obtain ⟨row, hr, hs, hnew, hc⟩ :=
      h.exists_newly_settled hsafe.orderly hsafe'.orderly hext hdue hold
    rcases awaits_of_newly_settled h hsafe htracked hn hthrew hr hs hnew with ⟨-, hf⟩ | ⟨-, haw⟩
    · exact .inl (hgoal (.inr (.inl hf)))
    · exact .inr ⟨row, hr, hs, hc, haw _⟩

theorem complete_next (hc : Complete execution.graph trigger t.store.steps) :
    (t.store.steps.hasFailedSteps = true ∨ Over t) ∨
    ∃ row ∈ t.store.steps.rows, row.Settled ∧
      Awaits t (.stepSettled row.id) (CompleteGood row) := by
  obtain ⟨hsafe', hext⟩ := hsafe.next h hn
  have hgoal : s.store.steps.hasFailedSteps = true ∨ Over s →
      t.store.steps.hasFailedSteps = true ∨ Over t :=
    Or.imp hext.hasFailedSteps fun ho => Over.next h hsafe ho hn
  by_cases hold : Complete execution.graph trigger s.store.steps
  · rcases hd.complete hold with hmet | ⟨row, hr, hs, haw⟩
    · exact .inl (hgoal hmet)
    · suffices hwait : (t.store.steps.hasFailedSteps = true ∨ Over t) ∨
          Awaits t (.stepSettled row.id) (CompleteGood row) from
        hwait.imp id fun haw => ⟨row, hext.settled hr hs, hs, haw⟩
      refine haw.next hn hthrew rfl (fun pc hg => hg) fun p outcome hp hg hmove => ?_
      have hinv := hsafe.pc p hp
      have hstore := hmove.store
      revert hg hstore hinv
      generalize p.pc = pc
      intro hg hinv hstore
      have hcount := Executable.Complete.count_eq h hsafe.orderly hold
      cases pc with
      | loadSettledStep stepId =>
        obtain rfl : stepId = row.id := hg
        have hload := loadStep_eq_some.mpr ⟨hr, rfl⟩
        simp only [advance, hload]
        exact .go rfl rfl
      | loadSettledExecution step =>
        obtain rfl : step = row := hg
        simp only [advance]
        split
        · exact .throw rfl
        · split_ifs with hf hrun hdone
          · exact .go rfl trivial
          · have ho := hd.over_of_not_running hsafe hr hrun
            exact .met (hgoal (.inr ho))
          · exact .go rfl rfl
          · exact .go rfl trivial
      | checkFailed step =>
        obtain rfl : step = row := hg
        simp only [advance]
        split_ifs with hf
        · exact .go rfl trivial
        · exact .go rfl rfl
      | loadTerminals step =>
        obtain rfl : step = row := hg
        exact .go rfl rfl
      | loadSteps step terminalIterations =>
        obtain ⟨-, -, earlier, hoe, hee, rfl⟩ := hinv
        obtain rfl : step = row := hg
        have hempty := planSuccessors_of_complete h hsafe.orderly hoe hee hold hr hs
        simp only [advance, if_pos hempty]
        exact .go rfl trivial
      | failExecution =>
        have ho := over_of_finishExecution hsafe hd hr (.inr rfl) hstore
        exact .met (.inr ho)
      | countExpected =>
        simp only [advance, h.findTriggerNode, finishTerminals_count, hcount]
        exact .go rfl trivial
      | countSettled expected =>
        have he : expectedSteps execution.graph trigger s.store.steps = some expected := hinv
        obtain rfl := Option.some.inj (hcount.symm.trans he)
        simp only [advance, if_neg (lt_irrefl _)]
        exact .go rfl trivial
      | checkOutcome =>
        exact .go rfl trivial
      | recordOutcome failed =>
        have ho := over_of_finishExecution hsafe hd hr (by split_ifs <;> simp) hstore
        exact .met (.inr ho)
      | _ => exact absurd hg id
  · obtain ⟨row, hr, hs, hnew⟩ :=
      Executable.Complete.exists_newly_settled h hsafe.orderly hsafe'.orderly hc hold
    rcases awaits_of_newly_settled h hsafe htracked hn hthrew hr hs hnew with ⟨-, hf⟩ | ⟨-, haw⟩
    · exact .inl (hgoal (.inl hf))
    · exact .inr ⟨row, hr, hs, haw _⟩

/-- **One step keeps everything left to do in the hands of a message.** -/
theorem Driven.next : Driven execution.graph trigger t where
  fresh := fresh_next h hsafe hd hn hthrew
  start := start_next h hsafe hd hn hthrew
  queued _ := queued_next h hsafe htracked hd hn hthrew
  cancelled _ := cancelled_next h hsafe htracked hd hn hthrew
  failed _ := failed_next h hsafe htracked hd hn hthrew
  due _ := due_next h hsafe htracked hd hn hthrew
  complete := complete_next h hsafe htracked hd hn hthrew

end Step

omit h in
/-- A handler that threw stays on record. -/
theorem threw_next (hn : s.next execution e = some t) (hthrew : t.threw = false) :
    s.threw = false := by
  by_contra hs
  have hs : s.threw = true := by simpa using hs
  rcases next_cases hn with ⟨m, -, rfl⟩ | ⟨p, outcome, hmove⟩ | ⟨hthrew', -⟩
  · simp [hs] at hthrew
  · simp [hmove.threw.mpr (.inl hs)] at hthrew
  · simp [hthrew'] at hthrew

theorem driven_initial : Driven execution.graph trigger .initial where
  fresh _ := ⟨rfl, by simp [State.initial], by simp [State.initial], by simp [State.initial],
    by simp [State.initial]⟩
  start hq := absurd rfl hq
  queued row hr := absurd hr (List.not_mem_nil (a := row))
  cancelled row hr := absurd hr (List.not_mem_nil (a := row))
  failed row hr := absurd hr (List.not_mem_nil (a := row))
  due key hdue := by
    -- a due step has a settled source
    obtain ⟨-, hres, edge, he, hto, source, hsrc⟩ := creates_iff.mp hdue.2
    have hr := hres edge he hto
    rw [hsrc] at hr
    obtain ⟨row, hrow, -⟩ := resolved_row_iff.mp hr
    exact absurd hrow (List.not_mem_nil (a := row))
  complete hc := by
    have ho := (safe_initial execution.graph trigger).orderly
    obtain ⟨row, hr, -⟩ := Executable.Complete.exists_row h ho hc (h.admissible_trigger _)
    exact absurd hr (List.not_mem_nil (a := row))

/-- **In every reachable state everything left to do awaits a message**, unless a handler threw. -/
theorem driven_of_reachable (hs : (engine execution).Reachable s) (hthrew : s.threw = false) :
    Tracked s ∧ Driven execution.graph trigger s := by
  revert hthrew
  refine hs.invariant_of_reachable (I := fun s => s.threw = false →
    Tracked s ∧ Driven execution.graph trigger s) ?_ ?_
  · rintro _ rfl -
    exact ⟨tracked_initial, driven_initial h⟩
  · intro u e v hu ih hn hthrew
    have hsafe := safe_of_reachable h hu
    obtain ⟨htracked, hd⟩ := ih (threw_next hn hthrew)
    exact ⟨htracked.next h hsafe hn, Driven.next h hsafe htracked hd hn hthrew⟩

omit h in
/-- With no message in flight nothing awaits a message. -/
theorem State.Quiescent.not_awaits (hq : s.Quiescent) {m : Message} {good : Pc → Prop} :
    ¬ Awaits s m good := by
  rintro ⟨hacked, -, hsent | ⟨p, hp, -⟩⟩
  · exact hacked (hq.1 m hsent)
  · rw [hq.2] at hp
    cases hp

omit h in
/-- With no message in flight and no step running, an execution is over or has nothing due. -/
theorem Driven.closed_of_quiescent (hsafe : Safe execution.graph trigger s)
    (hd : Driven execution.graph trigger s) (hq : s.Quiescent)
    (hrec : ∀ row ∈ s.store.steps.rows, row.status ≠ .running)
    (hf : s.store.steps.hasFailedSteps = false) (hover : ¬ Over s) :
    Closed execution.graph trigger s.store.steps where
  orderly := hsafe.orderly
  settled row hr := by
    cases hst : row.status with
    | queued =>
      rcases hd.queued row hr hst with hf' | haw
      · simp [hf] at hf'
      · exact absurd haw hq.not_awaits
    | running => exact absurd hst (hrec row hr)
    | completed => simp [StepRecord.Settled, hst, isSettledStatus]
    | failed => simp [StepRecord.Settled, hst, isSettledStatus]
    | skipped => simp [StepRecord.Settled, hst, isSettledStatus]
    | cancelled => simp [StepRecord.Settled, hst, isSettledStatus]
  start := by
    refine (hd.start fun hst => ?_).resolve_right ?_
    · obtain ⟨-, -, -, hsent, hacked⟩ := hd.fresh hst
      exact hacked (hq.1 _ hsent)
    · rintro ⟨p, hp, -⟩
      rw [hq.2] at hp
      cases hp
  due key hdue := by
    rcases hd.due key hdue with (hrow | hf' | ho) | ⟨row, -, -, -, haw⟩
    · exact hrow
    · simp [hf] at hf'
    · exact absurd ho hover
    · exact absurd haw hq.not_awaits

/-- With no message in flight and no step running, an execution is over. -/
theorem Driven.over_of_quiescent (hsafe : Safe execution.graph trigger s)
    (hd : Driven execution.graph trigger s) (hq : s.Quiescent)
    (hrec : ∀ row ∈ s.store.steps.rows, row.status ≠ .running) : Over s := by
  by_contra hover
  cases hf : s.store.steps.hasFailedSteps with
  | true =>
    obtain ⟨row, hr, hst⟩ := hasFailedSteps_iff.mp hf
    rcases hd.failed row hr hst with ⟨ho, -⟩ | haw
    · exact hover ho
    · exact hq.not_awaits haw
  | false =>
    have hclosed := hd.closed_of_quiescent hsafe hq hrec hf hover
    rcases hd.complete (Executable.Closed.complete h hclosed) with (hf' | ho) | ⟨row, -, -, haw⟩
    · simp [hf] at hf'
    · exact hover ho
    · exact hq.not_awaits haw

end Driven

/-! ## No execution gets stuck -/

section Results

variable {execution : ExecutionRecord}

/-- The count the completion check looks for. -/
def expectedNow (execution : ExecutionRecord) (trigger : GraphNode) (table : StepTable) : Option ℕ :=
  countExpectedSettledSteps (deriveLoops execution.graph)
    (reachableNodeIds execution.graph trigger) (finishTerminals execution trigger table)

/-- **No execution gets stuck**: with no message in flight, no handler that threw and no step still
running, it is completed with the expected number of settled rows, or failed with no row queued.
As soon as the last row of a completed execution has settled, the count is reached. -/
theorem finished_of_quiescent (hv : validateExecutableGraph execution.graph = .ok ()) {s : State}
    (hs : (engine execution).Reachable s) (hq : s.Quiescent) (hthrew : s.threw = false)
    (hrec : ∀ row ∈ s.store.steps.rows, row.status ≠ .running) :
    ∃ trigger, findTriggerNode execution.graph = some trigger ∧
      ((s.store.status = .completed ∧ (∀ row ∈ s.store.steps.rows, row.Settled) ∧
          expectedNow execution trigger s.store.steps = some s.store.steps.countSettledSteps ∧
          ∀ s₀, (engine execution).Reachable s₀ → (engine execution).Later s₀ s →
            (∀ row ∈ s.store.steps.rows, row ∈ s₀.store.steps.rows) →
            expectedNow execution trigger s₀.store.steps =
              some s₀.store.steps.countSettledSteps) ∨
        (s.store.status = .failed ∧ ∀ row ∈ s.store.steps.rows, row.status ≠ .queued)) := by
  obtain ⟨trigger, h⟩ := exists_executable hv
  refine ⟨trigger, h.findTriggerNode, ?_⟩
  have hsafe := safe_of_reachable h hs
  obtain ⟨-, hd⟩ := driven_of_reachable h hs hthrew
  have hcount : ∀ {table}, Orderly execution.graph trigger table →
      Complete execution.graph trigger table →
      expectedNow execution trigger table = some table.countSettledSteps := by
    intro table ho hc
    rw [expectedNow, finishTerminals_count]
    exact Executable.Complete.count_eq h ho hc
  rcases hd.over_of_quiescent h hsafe hq hrec with hcompleted | hfailed
  · obtain ⟨hc, -⟩ := hsafe.completed hcompleted
    refine .inl ⟨hcompleted, Executable.Complete.settled h hsafe.orderly hc,
      hcount hsafe.orderly hc, fun s₀ hs₀ hlater hrows => ?_⟩
    have ho₀ := (safe_of_reachable h hs₀).orderly
    refine hcount ho₀ ?_
    by_contra hnot
    obtain ⟨row, hr, -, hnew⟩ :=
      Executable.Complete.exists_newly_settled h ho₀ hsafe.orderly hc hnot
    exact hnew (hrows row hr)
  · obtain ⟨row, hr, hst⟩ := hasFailedSteps_iff.mp (hsafe.failed hfailed)
    rcases hd.failed row hr hst with ⟨-, hnone⟩ | haw
    · exact .inr ⟨hfailed, hnone⟩
    · exact absurd haw hq.not_awaits

theorem finished_of_quiescent_linear :
    ∃ trigger, findTriggerNode linearExecution.graph = some trigger ∧
      expectedNow linearExecution trigger linearEnd.store.steps = some 2 ∧
      linearEnd.store.steps.countSettledSteps = 2 := by
  have hq : linearEnd.Quiescent := by unfold State.Quiescent; decide
  obtain ⟨trigger, ht, ⟨-, -, hcount, -⟩ | ⟨hfailed, -⟩⟩ :=
    @finished_of_quiescent linearExecution rfl _ reachable_linearEnd hq rfl (by decide)
  · exact ⟨trigger, ht, hcount, rfl⟩
  · cases hfailed

/-- **A failed step stops the execution**: from then on no step is queued. -/
theorem queued_of_failed (hv : validateExecutableGraph execution.graph = .ok ()) {s t : State}
    (hs : (engine execution).Reachable s) (ht : (engine execution).Later s t)
    (hf : s.store.steps.hasFailedSteps = true) :
    ∀ row ∈ t.store.steps.rows, row.status = .queued → row ∈ s.store.steps.rows := by
  obtain ⟨trigger, h⟩ := exists_executable hv
  obtain ⟨es, hrun⟩ := ht
  induction hrun with
  | nil => exact fun _ hr _ => hr
  | snoc hrun hn ih =>
    intro row hr hq
    have hu := hs.later ⟨_, hrun⟩
    refine ih row ?_ hq
    by_contra hnew
    rcases next_cases hn with ⟨m, -, rfl⟩ | ⟨p, outcome, hmove⟩ | ⟨-, hstore, -⟩
    · exact hnew hr
    · rw [hmove.store] at hr
      cases rowChange_of_new h outcome ((safe_of_reachable h hu).pc p hmove.mem) hr hnew with
      | queued _ _ allowed =>
        simp [(extends_of_later h hs ⟨_, hrun⟩).hasFailedSteps hf] at allowed
      | settled settled => simp [StepRecord.Settled, hq, isSettledStatus] at settled
      | running status | cancelled status => simp [hq] at status
    · exact hnew (hstore ▸ hr)

/-- The second step of two fails. -/
theorem queued_of_failed_linear : ∃ s : State, s.store.steps.hasFailedSteps = true ∧
    ∀ t, (engine linearExecution).Later s t → ∀ row ∈ t.store.steps.rows, row.status ≠ .queued := by
  let failing := linearRun.take 15 ++ .replicate 6 (.advance 0 (.error ⟨"", "", none, none⟩))
  let s := (State.initial.follow linearExecution failing).get rfl
  refine ⟨s, rfl, fun t ht row hr hq => ?_⟩
  have hr := queued_of_failed rfl (reachable_of_follow (Option.some_get _).symm) ht rfl row hr hq
  exact (by decide : ∀ row ∈ s.store.steps.rows, row.status ≠ .queued) row hr hq

end Results

end N8n.Engine
