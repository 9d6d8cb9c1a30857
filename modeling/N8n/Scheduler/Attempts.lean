import Mathlib.Data.List.Perm.Subperm
import N8n.Scheduler.LeaseInvariant

/-!
# How often a handler is started

A fire that wins the right to run its handler starts it, unless it is lost first. Both are counted:
the starts of a run so far, and the fires that have won. A row counts its attempts when it is done
with them, and the one it is in while it runs.

## Main definitions

* `starts`: the tasks whose handler a run has started
* `granted`: the starts so far and those still to come from fires that have won
* `ScheduledTask.starts`: the attempts of a row, with the one it is in

## Main results

* `handler_starts`: in every run a handler is started at most once for each lease of an occurrence,
  and at most as often as the occurrence may be attempted
-/

namespace N8n.Scheduler

open Tasks

/-- The tasks whose handler was started, in order. -/
def starts (es : List Event) : List ScheduledTask := es.filterMap Event.started

def Process.won : Process → List ScheduledTask
  | firing entry .won _ => [entry.task]
  | _ => []

/-- The starts that fires have won. -/
def Cluster.wins (s : Cluster) : List ScheduledTask := s.processes.flatMap fun p => p.2.won

/-- The starts so far, and those that fires have won. -/
def granted (es : List Event) (s : Cluster) : List ScheduledTask := starts es ++ s.wins

def ScheduledTask.starts (r : ScheduledTask) : ℤ :=
  r.attempts + if r.status = .running ∧ r.startedAt ≠ none then 1 else 0

section Wins

variable {options : ℕ → ExecutorOptions} {s t : Cluster} {e : Event} {es : List Event}

theorem starts_snoc : starts (es ++ [e]) = starts es ++ e.started.toList := by
  unfold starts
  rw [List.filterMap_append]
  cases h : e.started <;> simp [h]

/-- The wins when a process goes on as others: those of the others, instead of its own. -/
theorem wins_become {k i : ℕ} {p : Process} {processes : List Process}
    (hk : s.processes[k]? = some (i, p))
    (ht : t.processes = processes.map (Prod.mk i) ++ s.processes.eraseIdx k) :
    ∃ rest, t.wins = processes.flatMap Process.won ++ rest ∧ s.wins.Perm (p.won ++ rest) := by
  refine ⟨(s.processes.eraseIdx k).flatMap fun q => q.2.won, ?_, ?_⟩
  · rw [Cluster.wins, ht, List.flatMap_append, List.flatMap_map]
  · exact (perm_of_getElem? hk).flatMap_right _

theorem wins_subperm_of_become {k i : ℕ} {p : Process} {processes : List Process}
    (hk : s.processes[k]? = some (i, p))
    (ht : t.processes = processes.map (Prod.mk i) ++ s.processes.eraseIdx k)
    {new : List ScheduledTask}
    (h : (new ++ processes.flatMap Process.won).Sublist p.won) :
    (new ++ t.wins).Subperm s.wins := by
  obtain ⟨rest, hwins, hperm⟩ := wins_become hk ht
  rw [hwins, ← List.append_assoc]
  exact (h.append (List.Sublist.refl rest)).subperm.trans hperm.symm.subperm

/-- How the wins change in a step: a fire wins, or there are as many wins as before or fewer. -/
inductive Grants (s : Cluster) (e : Event) (t : Cluster) : Prop
  | fewer (h : (e.started.toList ++ t.wins).Subperm s.wins)
  | wins (entry : ClaimedEntry) (dispatchMark : DispatchMark) (leaseMs now : ℤ)
    (writer : s.writer e = some (.firing entry .confirming dispatchMark))
    (won : (s.tasks.beginDispatch entry.claim leaseMs now).2 ≠ 0)
    (tasks : t.tasks = (s.tasks.beginDispatch entry.claim leaseMs now).1)
    (h : (e.started.toList ++ t.wins).Perm (entry.task :: s.wins))

/-- The mark of its dispatch does not matter to what a fire has won. -/
theorem flatMap_won_firing (entry : ClaimedEntry) (stage : FireStage)
    (dispatchMark dispatchMark' : DispatchMark) :
    [Process.firing entry stage dispatchMark].flatMap Process.won =
      (Process.firing entry stage dispatchMark').won := by
  cases stage <;> rfl

theorem Goes.won {executor executor' : Executor} {p : Process} {processes : List Process}
    (h : Goes executor e p executor' processes) :
    (e.started.toList ++ processes.flatMap Process.won).Sublist p.won := by
  cases h with
  | lost | abortSweep | dispatched | settle | lostRow => exact List.nil_sublist _
  | lostMark k entry stage =>
    show ([] ++ [Process.firing entry stage .settled].flatMap Process.won).Sublist _
    rw [flatMap_won_firing entry stage .settled .writing]
    exact List.Sublist.refl _
  | execute => exact List.Sublist.refl _
  | schedule k host tasks aborted =>
    unfold Executor.schedule
    split_ifs <;> simp [Executor.handBackClaims, Event.started, Process.won]
  | fire k entry registered =>
    cases registered <;> exact List.nil_sublist _

theorem grants_next (h : Stepped options s e t) : Grants s e t := by
  cases h with
  | statement _ tasks lastId _ started =>
    refine .fewer ?_
    rw [started]
    exact List.Subperm.refl _
  | claim | sweep | clear => exact .fewer (List.Subperm.refl _)
  | write k i now p tasks processes hk hwrite =>
    have hwins := wins_become (t := { s with tasks := tasks }.become k i processes) hk rfl
    have hfewer := @wins_subperm_of_become s ({ s with tasks := tasks }.become k i processes) k i p
      processes hk rfl []
    cases hwrite with
    | won entry dispatchMark hwon =>
      refine .wins entry dispatchMark _ now (writer_write hk) hwon rfl ?_
      obtain ⟨rest, ht, hs⟩ := hwins
      show ([] ++ _ : List ScheduledTask).Perm _
      rw [ht]
      exact (hs.cons entry.task).symm
    | release | lost | outcome | recover => exact .fewer (hfewer (List.nil_sublist _))
    | mark entry stage hstage =>
      refine .fewer (hfewer ?_)
      rw [flatMap_won_firing entry stage .settled .writing]
      exact List.Sublist.refl _
  | goes _ k i p executor processes hk hgoes =>
    exact .fewer (wins_subperm_of_become hk rfl hgoes.won)
  | stop i =>
    refine .fewer ?_
    have hreleases : ((s.executors i).claimedTaskById.values.map fun entry =>
        (i, Process.releasing entry.claim)).flatMap (fun q => q.2.won) = [] := by
      simp [Process.won]
    show (List.flatMap _ (_ ++ _)).Subperm s.wins
    rw [List.flatMap_append, hreleases, List.nil_append]
    exact (List.filter_sublist.flatMap _).subperm
  | crash i => exact .fewer (List.filter_sublist.flatMap _).subperm

end Wins

/-! ## Rows -/

section Rows

variable {s : Cluster} {e : Event} {r r' : ScheduledTask}

theorem le_starts (r : ScheduledTask) : r.attempts ≤ r.starts := by
  unfold ScheduledTask.starts
  split_ifs <;> omega

theorem starts_le_succ (r : ScheduledTask) : r.starts ≤ r.attempts + 1 := by
  unfold ScheduledTask.starts
  split_ifs <;> omega

theorem starts_of_unstarted (h : r.startedAt = none) : r.starts = r.attempts := by
  unfold ScheduledTask.starts
  rw [if_neg fun hr => hr.2 h, add_zero]

theorem starts_of_pending (h : r.status = .pending) : r.starts = r.attempts := by
  unfold ScheduledTask.starts
  rw [if_neg, add_zero]
  rintro ⟨hr, -⟩
  rw [h] at hr
  cases hr

/-- A row that is not done has counted its attempts. -/
theorem starts_le (inv : Inv s) (hr : r ∈ s.tasks.rows) (h : Change (s.writer e) r r')
    (live : r'.status.isTerminal = false) : r.starts ≤ r'.starts := by
  cases h with
  | keep => exact le_rfl
  | retime _ pending =>
    rw [starts_of_pending pending]
    exact le_starts _
  | claim batch now pending =>
    rw [starts_of_pending pending]
    exact le_starts _
  | confirm _ _ _ _ _ _ unstarted =>
    rw [starts_of_unstarted unstarted]
    exact le_starts _
  | mark => exact le_rfl
  | reschedule | reclaim => exact (starts_le_succ r).trans (le_starts _)
  | release claim writer owned =>
    -- what is given back has not been started
    obtain ⟨hlease, running, -⟩ := isOwned_iff.mp owned
    have hunstarted := (inv.released _ (released_of_writer writer)).2.1 r hr running hlease
    rw [starts_of_unstarted hunstarted]
    exact le_starts _
  | miss | complete | fail | deadLetter | completeExpired => cases live

end Rows

/-! ## Runs -/

/-- How often the handler of an occurrence is among some starts. -/
def startsOf (id : ℕ) (tasks : List ScheduledTask) : ℕ := tasks.countP fun task => task.id = id

/-- What the starts of a run so far, and those that fires have won, say of the rows. -/
structure History (es : List Event) (s : Cluster) : Prop where
  inv : Inv s
  leases : ((granted es s).map ScheduledTask.lease).Nodup
  started : ∀ task ∈ granted es s, s.Snapshot task ∧ s.Started task.lease
  bounded : ∀ task ∈ granted es s, (startsOf task.id (granted es s) : ℤ) ≤ max 1 task.maxAttempts
  live : ∀ r ∈ s.tasks.rows, r.status.isTerminal = false →
    (startsOf r.id (granted es s) : ℤ) ≤ r.starts

section History

variable {options : ℕ → ExecutorOptions} {s t : Cluster} {e : Event} {es : List Event}

theorem granted_snoc : granted (es ++ [e]) t = starts es ++ (e.started.toList ++ t.wins) := by
  rw [granted, starts_snoc, List.append_assoc]

/-- A row that is not terminal comes from one that is not, or is new. -/
theorem live_next {r' : ScheduledTask} (h : Stepped options s e t) (hr' : r' ∈ t.tasks.rows)
    (live : r'.status.isTerminal = false) :
    (∃ r ∈ s.tasks.rows, r.status.isTerminal = false ∧ r'.id = r.id ∧
      Change (s.writer e) r r') ∨ (s.lastId < r'.id ∧ r'.starts = 0) := by
  cases h.origin hr' with
  | changed r hr hchange =>
    refine .inl ⟨r, hr, ?_, hchange.id_eq, hchange⟩
    by_contra hterminal
    rw [hchange.eq_of_isTerminal (Bool.eq_true_of_not_eq_false hterminal)] at live
    exact hterminal live
  | inserted id occurrence above last row =>
    subst row
    exact .inr ⟨above, starts_of_pending rfl⟩

/-- A step in which no fire wins. -/
theorem History.of_fewer (h : History es s) (hstep : Stepped options s e t)
    (hgranted : (granted (es ++ [e]) t).Subperm (granted es s)) : History (es ++ [e]) t where
  inv := h.inv.step hstep
  leases := by
    obtain ⟨l, hperm, hsub⟩ := hgranted
    exact (hperm.map _).nodup_iff.mp (h.leases.sublist (hsub.map _))
  started task htask := by
    obtain ⟨hs, hstarted⟩ := h.started task (hgranted.subset htask)
    exact ⟨snapshot_next hstep hs, started_next hstep hs.knows hstarted⟩
  bounded task htask := by
    have hle := hgranted.countP_le fun task' => task'.id = task.id
    have hbounded := h.bounded task (hgranted.subset htask)
    unfold startsOf at hbounded ⊢
    omega
  live r' hr' live := by
    have hle := hgranted.countP_le fun task => task.id = r'.id
    rcases live_next hstep hr' live with ⟨r, hr, hlive, hid, hchange⟩ | ⟨above, hzero⟩
    · have hstarts := starts_le h.inv hr hchange live
      have hbound := h.live r hr hlive
      unfold startsOf at hbound ⊢
      rw [hid] at hle ⊢
      omega
    · -- a new row has an id above those of the starts
      have hnone : (granted es s).countP (fun task => task.id = r'.id) = 0 := by
        rw [List.countP_eq_zero]
        intro task htask
        have hknows : task.id ≤ s.lastId := (h.started task htask).1.knows.1
        rw [decide_eq_true_eq]
        omega
      unfold startsOf
      omega

/-- A step in which a fire wins: it wins a lease that no start has had. -/
theorem History.of_win (h : History es s) (hstep : Stepped options s e t) {entry : ClaimedEntry}
    {dispatchMark : DispatchMark} {leaseMs now : ℤ}
    (writer : s.writer e = some (.firing entry .confirming dispatchMark))
    (won : (s.tasks.beginDispatch entry.claim leaseMs now).2 ≠ 0)
    (tasks : t.tasks = (s.tasks.beginDispatch entry.claim leaseMs now).1)
    (hgranted : (granted (es ++ [e]) t).Perm (entry.task :: granted es s)) :
    History (es ++ [e]) t := by
  obtain ⟨hsnapshot, -, -⟩ := h.inv.writer writer
  obtain ⟨r, hr, hguard⟩ := List.countP_pos_iff.mp (Nat.pos_of_ne_zero won)
  rw [Bool.and_eq_true, Option.isNone_iff_eq_none] at hguard
  obtain ⟨howned, hunstarted⟩ := hguard
  have hrunning := Change.running_of_isOwned howned
  have hlease := Change.lease_of_isOwned howned
  have hid : entry.task.id = r.id := congrArg Prod.fst hlease
  have hcount : ∀ id, startsOf id (granted (es ++ [e]) t) =
      startsOf id (granted es s) + if entry.task.id = id then 1 else 0 := by
    intro id
    unfold startsOf
    rw [hgranted.countP_eq, List.countP_cons]
    simp
  -- the row is in an attempt that it has not counted
  have hlive : r.status.isTerminal = false := by rw [hrunning]; rfl
  have hbound := h.live r hr hlive
  rw [starts_of_unstarted hunstarted] at hbound
  have hleft := (h.inv.rows r hr).left hlive
  have hsnapshots : ∀ task ∈ entry.task :: granted es s, s.Snapshot task := by
    intro task htask
    rcases List.mem_cons.mp htask with rfl | htask
    · exact hsnapshot
    · exact (h.started task htask).1
  refine ⟨h.inv.step hstep, ?_, ?_, ?_, ?_⟩
  · rw [(hgranted.map ScheduledTask.lease).nodup_iff, List.map_cons, List.nodup_cons]
    refine ⟨?_, h.leases⟩
    intro hmem
    obtain ⟨task, htask, heq⟩ := List.mem_map.mp hmem
    exact (h.started task htask).2 r hr hrunning (hlease.symm.trans heq.symm) hunstarted
  · intro task htask
    rcases List.mem_cons.mp (hgranted.mem_iff.mp htask) with rfl | htask
    · exact ⟨snapshot_next hstep hsnapshot, started_of_won won tasks⟩
    · obtain ⟨hs, hstarted⟩ := h.started task htask
      exact ⟨snapshot_next hstep hs, started_next hstep hs.knows hstarted⟩
  · intro task htask
    have htask := hgranted.mem_iff.mp htask
    rw [hcount]
    split_ifs with heq
    · have hmax := (hsnapshots task htask).maxAttempts r hr (hid.symm.trans heq)
      rw [← hmax, ← heq, hid]
      push_cast
      omega
    · rcases List.mem_cons.mp htask with rfl | htask
      · exact absurd rfl heq
      · rw [add_zero]
        exact h.bounded task htask
  · intro r' hr' live
    rw [hcount]
    rcases live_next hstep hr' live with ⟨q, hq, hqlive, hqid, hchange⟩ | ⟨above, hzero⟩
    · split_ifs with heq
      · -- the row itself has been started
        obtain rfl := row_eq_of_id hq hr (hqid.symm.trans (heq.symm.trans hid))
        rw [tasks] at hr'
        rcases mem_updateValues.mp hr' with ⟨q', hq', -, rfl⟩ | ⟨hr', hguard'⟩
        · obtain rfl := row_eq_of_id hq' hr hqid
          rw [hqid]
          have hstarts : ({ q' with
              startedAt := some now
              leaseExpiresAt := some (now + leaseMs) } : ScheduledTask).starts =
              q'.attempts + 1 := by
            unfold ScheduledTask.starts
            rw [if_pos ⟨hrunning, Option.some_ne_none _⟩]
          have hgoal : ((startsOf q'.id (granted es s) + 1 : ℕ) : ℤ) ≤ q'.attempts + 1 := by
            push_cast
            omega
          exact hgoal.trans hstarts.ge
        · obtain rfl := row_eq_of_id hr' hr hqid
          rw [howned, hunstarted] at hguard'
          cases hguard'
      · have hstarts := starts_le h.inv hq hchange live
        have hbound := h.live q hq hqlive
        rw [hqid, add_zero]
        omega
    · have hne : entry.task.id ≠ r'.id := by
        have hle := h.inv.id_le r hr
        omega
      have hnone : startsOf r'.id (granted es s) = 0 := by
        unfold startsOf
        rw [List.countP_eq_zero]
        intro task htask
        have hknows : task.id ≤ s.lastId := (h.started task htask).1.knows.1
        rw [decide_eq_true_eq]
        omega
      rw [hnone, if_neg hne, hzero]
      rfl

theorem History.step (h : History es s) (hstep : Stepped options s e t) :
    History (es ++ [e]) t := by
  cases grants_next hstep with
  | fewer hwins =>
    refine h.of_fewer hstep ?_
    rw [granted_snoc]
    exact (List.Subperm.refl (starts es)).append hwins
  | wins entry dispatchMark leaseMs now writer won tasks hwins =>
    refine h.of_win hstep writer won tasks ?_
    rw [granted_snoc]
    exact (hwins.append_left (starts es)).trans List.perm_middle

theorem history_initial : History [] .initial where
  inv := inv_initial
  leases := List.nodup_nil
  started _ h := absurd h List.not_mem_nil
  bounded _ h := absurd h List.not_mem_nil
  live _ h := absurd h List.not_mem_nil

theorem history_run {isPostgres : Bool} (h : (cluster isPostgres options).Run .initial es t) :
    History es t :=
  h.history_invariant history_initial fun hs hstep => hs.step (stepped_next hstep)

/-- **A handler is started at most once for each lease of an occurrence, and in total at most as
often as the occurrence may be attempted**: in every run of any number of executors and reapers,
with any of them lost at any point. -/
theorem handler_starts {isPostgres : Bool}
    (h : (cluster isPostgres options).Run .initial es t) :
    ((starts es).map ScheduledTask.lease).Nodup ∧
      ∀ task ∈ starts es, 1 ≤ task.maxAttempts →
        (startsOf task.id (starts es) : ℤ) ≤ task.maxAttempts := by
  have hhistory := history_run h
  have hsub : (starts es).Sublist (granted es t) := List.sublist_append_left _ _
  refine ⟨hhistory.leases.sublist (hsub.map _), ?_⟩
  intro task htask hmax
  have hle := hsub.countP_le (p := fun task' => task'.id = task.id)
  have hbounded := hhistory.bounded task (hsub.subset htask)
  unfold startsOf at hbounded ⊢
  omega

end History

/-! ## A crash and a second attempt -/

section Crash

def claimedOccurrence (host : String) (epoch : ℕ) (attempts runAt now : ℤ)
    (errorMessage : Option String) : ScheduledTask :=
  { (⟨7, "poll", 0, runAt, 2, none⟩ : RecordedOccurrence).row 1 with
    status := .running
    attempts := attempts
    claimedBy := some host
    leaseExpiresAt := some (now + 60000)
    leaseEpoch := epoch
    errorMessage := errorMessage }

/-- A main crashes while it runs the handler; another one recovers the occurrence and runs it. -/
def crashed : List Event :=
  [.insert 1 ⟨7, "poll", 0, 0, 2, none⟩, .claimDueTasks 0 "main-1" ["poll"] [] 0,
    .schedule 0 false, .fire 0 true, .write 0 10,
    .execute 0 (claimedOccurrence "main-1" 1 0 0 0 none), .crash 0,
    .findExpiredLeases 1 100 60011, .write 0 60011,
    .claimDueTasks 1 "main-2" ["poll"] [] 65011, .schedule 0 false, .fire 0 true, .write 0 65020,
    .execute 0 (claimedOccurrence "main-2" 3 1 65011 65011 (some LEASE_EXPIRED_MESSAGE))]

theorem handler_starts_crashed :
    (∃ t, (cluster true fun _ => ⟨60, 5, 100⟩).Run .initial crashed t) ∧
    ((starts crashed).map ScheduledTask.lease).Nodup ∧
    ∀ task ∈ starts crashed, (startsOf task.id (starts crashed) : ℤ) ≤ task.maxAttempts := by
  have hend : (Transition.System.follow (Cluster.next true fun _ => ⟨60, 5, 100⟩) crashed
      .initial).isSome = true := by decide
  obtain ⟨t, ht⟩ := Option.isSome_iff_exists.mp hend
  have hrun := Transition.System.run_of_follow (S := cluster true fun _ => ⟨60, 5, 100⟩) id ht
  obtain ⟨hleases, hbound⟩ := handler_starts hrun
  have hmax : ∀ task ∈ starts crashed, 1 ≤ task.maxAttempts := by decide
  exact ⟨⟨t, hrun⟩, hleases, fun task htask => hbound task htask (hmax task htask)⟩

end Crash

end N8n.Scheduler
