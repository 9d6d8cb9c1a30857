import N8n.Scheduler.Attempts

/-!
# Fencing

What the guards of the statements give for whole runs: a terminal row stays as it is, an owner whose
lease was superseded changes nothing, a row whose dispatch was marked is not taken for one that was
not dispatched, and a pending row is either claimable or retirable.

## Main definitions

* `Superseded`: the row of a claim has a later epoch
* `Fenced`: the four properties

## Main results

* `fenced_run`: they hold in every run
-/

namespace N8n.Scheduler

open Tasks

/-! ## Pending rows -/

section Pending

variable {r : ScheduledTask} {now : ℤ}

/-- The two conditions are complements on pending rows, at every instant. -/
theorem isRetirable_eq_not_claimableSql (pending : r.status = .pending) (h : 0 ≤ r.attempts) :
    isRetirable now r = !claimableSql now r := by
  unfold isRetirable claimableSql
  rw [pending]
  by_cases hattempts : r.attempts = 0
  · cases hdeadline : r.missedAfter with
    | none => simp
    | some deadline =>
      -- the deadline has passed or is yet to come
      by_cases hnow : deadline ≤ now
      · simp [hattempts, hnow]
      · simp [hattempts, hnow, not_le.mp hnow]
  · have hpos : 0 < r.attempts := by omega
    simp [hattempts, hpos]

end Pending

/-! ## Superseded owners -/

def Superseded (tasks : Tasks) (claim : HostedClaimedRef) : Prop :=
  ∀ r ∈ tasks.rows, r.id = claim.id → claim.claimedEpoch < r.leaseEpoch

def Process.owner : Process → Option HostedClaimedRef
  | releasing claim => some claim
  | firing entry _ _ => some entry.claim
  | _ => none

section Superseded

variable {options : ExecutorOptions} {tasks tasks' : Tasks} {claim : HostedClaimedRef}

theorem isOwned_of_superseded (h : Superseded tasks claim) {r : ScheduledTask}
    (hr : r ∈ tasks.rows) : isOwned claim r = false := by
  apply Bool.eq_false_of_not_eq_true
  intro howned
  obtain ⟨hlease, -, -⟩ := isOwned_iff.mp howned
  have hid : r.id = claim.id := congrArg Prod.fst hlease
  have hepoch : r.leaseEpoch = claim.claimedEpoch := congrArg Prod.snd hlease
  have hlt := h r hr hid
  omega

theorem runGuardedUpdate_of_superseded (h : Superseded tasks claim)
    (values : ScheduledTask.Values) : (tasks.runGuardedUpdate claim values).1 = tasks :=
  updateValues_of_forall fun _ hr => isOwned_of_superseded h hr

theorem beginDispatch_of_superseded (h : Superseded tasks claim) (leaseMs now : ℤ) :
    (tasks.beginDispatch claim leaseMs now).1 = tasks := by
  refine updateValues_of_forall fun r hr => ?_
  rw [isOwned_of_superseded h hr]
  rfl

theorem recordOutcome_of_superseded {entry : ClaimedEntry} (h : Superseded tasks entry.claim)
    (result : HandlerResult) (dispatchMark : DispatchMark) (now : ℤ) :
    (recordOutcome tasks entry result dispatchMark now).1 = tasks := by
  unfold recordOutcome
  cases result with
  | returned => exact runGuardedUpdate_of_superseded h _
  | threw errorMessage =>
    simp only
    split_ifs <;> exact runGuardedUpdate_of_superseded h _

/-- An owner whose lease was superseded changes no row. -/
theorem Writes.of_superseded {p : Process} {now : ℤ} {processes : List Process}
    (h : Writes options tasks now p tasks' processes) (howner : p.owner = some claim)
    (hsuperseded : Superseded tasks claim) : tasks' = tasks := by
  cases h with
  | release claim =>
    cases howner
    exact runGuardedUpdate_of_superseded hsuperseded _
  | lost entry | won entry =>
    cases howner
    exact beginDispatch_of_superseded hsuperseded _ now
  | mark entry stage =>
    cases howner
    exact runGuardedUpdate_of_superseded hsuperseded _
  | outcome entry result dispatchMark =>
    cases howner
    exact recordOutcome_of_superseded hsuperseded result dispatchMark now
  | recover => cases howner

end Superseded

/-! ## Dispatched rows -/

section Dispatched

variable {s : Cluster} {e : Event} {r r' : ScheduledTask}

/-- The step is the owner's own retry, after its handler threw with attempts left. -/
def OwnRetry (s : Cluster) (e : Event) (r : ScheduledTask) : Prop :=
  ∃ entry errorMessage dispatchMark,
    s.writer e = some (.firing entry (.ended (.threw errorMessage)) dispatchMark) ∧
      entry.task.lease = r.lease ∧ entry.task.attempts + 1 < entry.task.maxAttempts

theorem not_preDispatch {ref : ClaimedRef} {now : ℤ} (hdispatched : r.dispatchedAt ≠ none) :
    ¬ isRecoverable ref .preDispatch now r = true := by
  intro h
  have hfence := (isRecoverable_iff.mp h).2.2.2
  rw [Option.isSome_iff_ne_none] at hfence
  cases hfence.mp hdispatched

/-- A row whose dispatch was marked under its lease ends as succeeded, unless its owner retries. -/
theorem dispatched_next (inv : Inv s) (hr : r ∈ s.tasks.rows) (running : r.status = .running)
    (hdispatched : r.dispatchedAt ≠ none) (h : Change (s.writer e) r r') :
    (r'.status = .running ∧ r'.leaseEpoch = r.leaseEpoch ∧ r'.dispatchedAt ≠ none) ∨
      r'.status = .succeeded ∨ (r'.status = .pending ∧ OwnRetry s e r) := by
  cases h with
  | keep => exact .inl ⟨running, rfl, hdispatched⟩
  | retime _ pending | miss _ pending | claim _ _ pending =>
    rw [running] at pending
    cases pending
  | confirm => exact .inl ⟨running, rfl, hdispatched⟩
  | mark => exact .inl ⟨running, rfl, Option.some_ne_none _⟩
  | complete | completeExpired => exact .inr (.inl rfl)
  | fail entry errorMessage now writer owned =>
    -- its mark is unset, so that nobody has marked the dispatch under this lease
    obtain ⟨-, -, hmark⟩ := inv.writer writer
    exact absurd (hmark rfl r hr running (Change.lease_of_isOwned owned).symm) hdispatched
  | reschedule entry errorMessage dispatchMark runAt writer owned left =>
    exact .inr (.inr ⟨rfl, entry, errorMessage, dispatchMark, writer,
      Change.lease_of_isOwned owned, left⟩)
  | release claim writer owned =>
    -- what is given back was not started, and so not dispatched
    obtain ⟨hlease, -, -⟩ := isOwned_iff.mp owned
    have hunstarted := (inv.released _ (released_of_writer writer)).2.1 r hr running hlease
    exact absurd ((inv.rows r hr).dispatched running hunstarted) hdispatched
  | reclaim _ _ _ _ _ _ recoverable | deadLetter _ _ _ _ _ recoverable =>
    exact absurd recoverable (not_preDispatch hdispatched)

end Dispatched

/-! ## Runs -/

/-- What the guards of the statements give, after the steps `es`. -/
structure Fenced (isPostgres : Bool) (options : ℕ → ExecutorOptions) (es : List Event)
    (s : Cluster) : Prop where
  /-- A terminal row does not change again. -/
  terminal : ∀ t, (cluster isPostgres options).Later s t → ∀ r ∈ s.tasks.rows,
    r.status.isTerminal = true → ∀ r' ∈ t.tasks.rows, r'.id = r.id → r' = r
  /-- An owner whose lease was superseded changes no row. -/
  superseded : ∀ k now i p claim t, s.processes[k]? = some (i, p) → p.owner = some claim →
    Superseded s.tasks claim → (cluster isPostgres options).step s (.write k now) t →
      t.tasks = s.tasks
  /-- A row whose dispatch was marked under its lease is not failed, and only its owner's own retry
  sends it back. -/
  dispatched : ∀ e t, (cluster isPostgres options).step s e t → ∀ r ∈ s.tasks.rows,
    r.status = .running → r.dispatchedAt ≠ none → ∀ r' ∈ t.tasks.rows, r'.id = r.id →
      r'.status ≠ .failed ∧ (r'.status = .pending → OwnRetry s e r)
  /-- A pending row is either claimable or retirable, at every instant. -/
  pending : ∀ r ∈ s.tasks.rows, r.status = .pending → ∀ now,
    Xor (claimableSql now r = true) (isRetirable now r = true)
  /-- What may be retired was never started, and no fire is about to start it. -/
  retired : ∀ r ∈ s.tasks.rows, ∀ now, isRetirable now r = true →
    ∀ task ∈ granted es s, task.id ≠ r.id

section Fenced

variable {isPostgres : Bool} {options : ℕ → ExecutorOptions} {es : List Event} {s t : Cluster}

/-- A row after a step is the row before it, changed, or a new one. -/
theorem change_of_id {e : Event} {r r' : ScheduledTask} (inv : Inv s)
    (h : Stepped options s e t) (hr : r ∈ s.tasks.rows) (hr' : r' ∈ t.tasks.rows)
    (hid : r'.id = r.id) : Change (s.writer e) r r' := by
  cases h.origin hr' with
  | changed q hq hchange =>
    obtain rfl := row_eq_of_id hq hr (hchange.id_eq.symm.trans hid)
    exact hchange
  | inserted id occurrence above last row =>
    -- ids are not given out again
    subst row
    have hid : id = r.id := hid
    have hle := inv.id_le r hr
    omega

/-- A terminal row stays as it is along every run, and its id is not given out again. -/
theorem terminal_later {r : ScheduledTask} (inv : Inv s) (hr : r.id ≤ s.lastId)
    (huniq : ∀ r' ∈ s.tasks.rows, r'.id = r.id → r' = r) (hterminal : r.status.isTerminal = true)
    (h : (cluster isPostgres options).Later s t) :
    Inv t ∧ r.id ≤ t.lastId ∧ ∀ r' ∈ t.tasks.rows, r'.id = r.id → r' = r := by
  obtain ⟨fs, hrun⟩ := h
  refine hrun.history_invariant
    (I := fun _ t => Inv t ∧ r.id ≤ t.lastId ∧ ∀ r' ∈ t.tasks.rows, r'.id = r.id → r' = r)
    ⟨inv, hr, huniq⟩ ?_
  rintro fs u e v ⟨hinv, hle, huniq⟩ hstep
  have hstep := stepped_next hstep
  refine ⟨hinv.step hstep, hle.trans hstep.lastId_le, ?_⟩
  intro r' hr' hid
  cases hstep.origin hr' with
  | changed q hq hchange =>
    obtain rfl := huniq q hq (hchange.id_eq.symm.trans hid)
    exact hchange.eq_of_isTerminal hterminal
  | inserted id occurrence above last row =>
    subst row
    have hid : id = r.id := hid
    omega

/-- What may be retired has never been started. -/
theorem ne_of_retirable {r : ScheduledTask} {now : ℤ} (h : History es s) (hr : r ∈ s.tasks.rows)
    (hretirable : isRetirable now r = true) {task : ScheduledTask} (htask : task ∈ granted es s) :
    task.id ≠ r.id := by
  have hpending := pending_of_isRetirable hretirable
  have hbound := h.live r hr (by rw [hpending]; rfl)
  rw [starts_of_pending hpending] at hbound
  have hattempts : r.attempts = 0 := by
    simp only [isRetirable, Bool.and_eq_true, decide_eq_true_eq] at hretirable
    exact hretirable.2
  intro hid
  have hpos : 0 < startsOf r.id (granted es s) := by
    unfold startsOf
    rw [List.countP_pos_iff]
    exact ⟨task, htask, decide_eq_true hid⟩
  omega

/-- **Fencing**: in every run of any number of executors and reapers, with any of them lost at any
point. -/
theorem fenced_run (h : (cluster isPostgres options).Run .initial es s) :
    Fenced isPostgres options es s := by
  have hhistory := history_run h
  have inv := hhistory.inv
  refine ⟨?_, ?_, ?_, ?_, ?_⟩
  · intro t hlater r hr hterminal
    exact (terminal_later inv (inv.id_le r hr) (fun r' hr' hid => row_eq_of_id hr' hr hid)
      hterminal hlater).2.2
  · intro k now i p claim t hk howner hsuperseded hstep
    cases stepped_next hstep with
    | statement _ _ _ _ _ writer =>
      rw [writer_write hk] at writer
      cases writer
    | write _ i' _ p' tasks processes hk' hwrite =>
      rw [hk] at hk'
      cases hk'
      exact hwrite.of_superseded howner hsuperseded
    | goes _ _ _ _ _ _ _ hgoes => cases hgoes
  · intro e t hstep r hr running hdispatched r' hr' hid
    have hchange := change_of_id inv (stepped_next hstep) hr hr' hid
    rcases dispatched_next inv hr running hdispatched hchange with
      ⟨hrunning, -, -⟩ | hsucceeded | ⟨hpending, hretry⟩
    · rw [hrunning]
      exact ⟨nofun, nofun⟩
    · rw [hsucceeded]
      exact ⟨nofun, nofun⟩
    · rw [hpending]
      exact ⟨nofun, fun _ => hretry⟩
  · intro r hr hpending now
    rw [isRetirable_eq_not_claimableSql hpending (inv.rows r hr).attempts]
    cases claimableSql now r <;> simp
  · exact fun r hr now hretirable task htask => ne_of_retirable hhistory hr hretirable htask

end Fenced

/-! ## A dispatch that races with a sweep -/

section Raced

/-- A sweep reads an expired row before its owner marks the dispatch, and writes afterwards. -/
def raced : List Event :=
  [.insert 1 ⟨7, "poll", 0, 0, 1, none⟩, .claimDueTasks 0 "main-1" ["poll"] [] 0,
    .schedule 0 false, .fire 0 true, .write 0 10,
    .execute 0 { (⟨7, "poll", 0, 0, 1, none⟩ : RecordedOccurrence).row 1 with
      status := .running
      claimedBy := some "main-1"
      leaseExpiresAt := some 60000
      leaseEpoch := 1 },
    .findExpiredLeases 1 100 60011, .dispatched 1, .write 1 60012, .write 1 60013]

theorem fenced_run_raced : ∃ s, (cluster true fun _ => ⟨60, 5, 100⟩).Run .initial raced s ∧
    Fenced true (fun _ => ⟨60, 5, 100⟩) raced s := by
  have hend : (Transition.System.follow (Cluster.next true fun _ => ⟨60, 5, 100⟩) raced
      .initial).isSome = true := by decide
  obtain ⟨s, hs⟩ := Option.isSome_iff_exists.mp hend
  have hrun := Transition.System.run_of_follow (S := cluster true fun _ => ⟨60, 5, 100⟩) id hs
  exact ⟨s, hrun, fenced_run hrun⟩

end Raced

end N8n.Scheduler
