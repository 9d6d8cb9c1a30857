import Mathlib.Data.List.Flatten
import Mathlib.Data.List.Nodup
import N8n.Scheduler.Leases

/-!
# The invariant of the scheduler

A lease is held by at most one process, which runs its task at most once; a lease that is being
given back is held by none. A row has attempts left as long as it is not terminal.

## Main definitions

* `RowInv`: what holds of a row
* `Cluster.Released`: the leases that are given back, or will be
* `Inv`: the invariant

## Main results

* `Inv.step`, `inv_reachable`: the invariant holds in every reachable state
-/

namespace N8n.Scheduler

open Tasks

/-! ## Rows -/

structure RowInv (r : ScheduledTask) : Prop where
  attempts : 0 ≤ r.attempts
  left : r.status.isTerminal = false → r.attempts < max 1 r.maxAttempts
  pending : r.status = .pending → r.startedAt = none ∧ r.dispatchedAt = none
  dispatched : r.status = .running → r.startedAt = none → r.dispatchedAt = none

/-- Every row that is there may be relied on, and so may what every process knows. -/
structure RowsInv (s : Cluster) : Prop where
  id_le : ∀ r ∈ s.tasks.rows, r.id ≤ s.lastId
  rows : ∀ r ∈ s.tasks.rows, RowInv r
  good : ∀ p ∈ s.processes, s.Good p.2

section Rows

variable {options : ℕ → ExecutorOptions} {s t : Cluster} {e : Event} {r r' : ScheduledTask}

theorem RowsInv.writer (inv : RowsInv s) {p : Process} (h : s.writer e = some p) : s.Good p := by
  cases e with
  | write k now =>
    obtain ⟨q, hq, rfl⟩ := Option.map_eq_some_iff.mp h
    exact inv.good q (List.mem_of_getElem? hq)
  | _ => cases h

/-- A row of a snapshot that leaves attempts has attempts left. -/
theorem left_of_snapshot {task : ScheduledTask} (hs : s.Snapshot task) (hr : r ∈ s.tasks.rows)
    (running : r.status = .running) (hlease : r.lease = task.lease)
    (left : task.attempts + 1 < task.maxAttempts) : r.attempts + 1 < max 1 r.maxAttempts := by
  rw [hs.attempts r hr running hlease, hs.maxAttempts r hr (congrArg Prod.fst hlease)]
  exact lt_max_of_lt_right left

/-- One step keeps what holds of a row. -/
theorem RowInv.change (inv : RowsInv s) (hr : r ∈ s.tasks.rows)
    (h : Change (s.writer e) r r') : RowInv r' := by
  obtain ⟨attempts, left, pending, dispatched⟩ := inv.rows r hr
  cases h with
  | keep => exact ⟨attempts, left, pending, dispatched⟩
  | retime deadline hpending => exact ⟨attempts, left, pending, dispatched⟩
  | miss | complete | completeExpired => exact ⟨attempts, by simp [ScheduledTaskStatus.isTerminal],
      by simp, by simp⟩
  | fail | deadLetter => exact ⟨by show 0 ≤ r.attempts + 1; omega,
      by simp [ScheduledTaskStatus.isTerminal], by simp, by simp⟩
  | claim batch now hpending =>
    refine ⟨attempts, fun _ => left (by rw [hpending]; rfl), by simp [claimValues], ?_⟩
    exact fun _ _ => (pending hpending).2
  | confirm entry dispatchMark leaseMs now writer owned unstarted =>
    have running := Change.running_of_isOwned owned
    refine ⟨attempts, left, fun h => ?_, fun _ h => absurd h (Option.some_ne_none _)⟩
    rw [show r.status = .pending from h] at running
    cases running
  | mark entry stage now hstage writer owned =>
    have running := Change.running_of_isOwned owned
    refine ⟨attempts, left, fun h => ?_, fun _ hstarted => ?_⟩
    · rw [show r.status = .pending from h] at running
      cases running
    · -- the fire that marks the dispatch has started the row
      obtain ⟨-, hgood, -⟩ := inv.writer writer
      rw [if_neg hstage] at hgood
      exact absurd hstarted (hgood r hr running (Change.lease_of_isOwned owned).symm)
  | reschedule entry errorMessage dispatchMark runAt writer owned hleft =>
    obtain ⟨hs, -, -⟩ := inv.writer writer
    have := left_of_snapshot hs hr (Change.running_of_isOwned owned)
      (Change.lease_of_isOwned owned).symm hleft
    exact ⟨by show 0 ≤ r.attempts + 1; omega, fun _ => this, fun _ => ⟨rfl, rfl⟩, by simp⟩
  | release claim writer owned =>
    have running := Change.running_of_isOwned owned
    exact ⟨attempts, fun _ => left (by rw [running]; rfl), fun _ => ⟨rfl, rfl⟩, by simp⟩
  | reclaim task expired now runAt errorMessage writer recoverable hleft =>
    have hs := inv.writer writer task (List.mem_cons_self ..)
    have := left_of_snapshot hs hr (Change.running_of_isRecoverable recoverable)
      (isRecoverable_iff.mp recoverable).1 hleft
    exact ⟨by show 0 ≤ r.attempts + 1; omega, fun _ => this, fun _ => ⟨rfl, rfl⟩, by simp⟩

theorem rowInv_row (o : RecordedOccurrence) (id : ℕ) : RowInv (o.row id) where
  attempts := le_rfl
  left _ := by
    show (0 : ℤ) < max 1 o.maxAttempts
    exact lt_max_of_lt_left one_pos
  pending _ := ⟨rfl, rfl⟩
  dispatched h := by cases h

theorem Origin.rowInv {lastId' : ℕ} (inv : RowsInv s)
    (h : Origin (s.writer e) s.tasks s.lastId lastId' r') : RowInv r' := by
  cases h with
  | changed r hr hchange => exact .change inv hr hchange
  | inserted id occurrence above last row =>
    subst row
    exact rowInv_row occurrence id

theorem Origin.id_le {lastId' : ℕ} (inv : RowsInv s) (hle : s.lastId ≤ lastId')
    (h : Origin (s.writer e) s.tasks s.lastId lastId' r') : r'.id ≤ lastId' := by
  cases h with
  | changed r hr hchange =>
    rw [hchange.id_eq]
    exact (inv.id_le r hr).trans hle
  | inserted id occurrence above last row =>
    subst row
    exact last.le

end Rows

/-! ## Leases -/

namespace Cluster

/-- The leases that processes hold to run their tasks. -/
def leases (s : Cluster) : List Lease := s.processes.flatMap fun p => p.2.leases

/-- A lease that is being given back, or that a stopped executor may give back again. -/
inductive Released (s : Cluster) : Lease → Prop
  | releasing (i : ℕ) (claim : HostedClaimedRef) (mem : (i, .releasing claim) ∈ s.processes) :
    Released s claim.lease
  | stopped (i : ℕ) (entry : ClaimedEntry) (stopping : (s.executors i).stopping = true)
    (mem : entry ∈ (s.executors i).claimedTaskById.values) : Released s entry.task.lease

end Cluster

structure Inv (s : Cluster) : Prop extends RowsInv s where
  leases : s.leases.Nodup
  released : ∀ lease, s.Released lease → s.Knows lease ∧ s.Unstarted lease ∧ lease ∉ s.leases
  keyed : ∀ i, OrderedMap.Keyed (fun entry => entry.task.id) (s.executors i).claimedTaskById
  tracked : ∀ i, (s.executors i).stopping = false →
    ∀ entry ∈ (s.executors i).claimedTaskById.values, (i, .timer entry) ∈ s.processes

section Leases

variable {options : ℕ → ExecutorOptions} {s t : Cluster} {e : Event} {lease : Lease}
  {processes : List Process} {p : Process} {entry : ClaimedEntry} {k i : ℕ}
  {claim : HostedClaimedRef} {now : ℤ}

theorem perm_of_getElem? {α : Type*} {l : List α} {k : ℕ} {a : α} (h : l[k]? = some a) :
    l.Perm (a :: l.eraseIdx k) := by
  obtain ⟨hk, rfl⟩ := List.getElem?_eq_some_iff.mp h
  exact (List.getElem_cons_eraseIdx_perm hk).symm

theorem mem_leases : lease ∈ s.leases ↔ ∃ p ∈ s.processes, lease ∈ p.2.leases := List.mem_flatMap

/-- A lease that a process holds has been given out. -/
theorem knows_of_good (h : s.Good p) (hlease : lease ∈ p.leases) : s.Knows lease := by
  cases p with
  | claimed host tasks =>
    obtain ⟨task, htask, rfl⟩ := List.mem_map.mp hlease
    exact (h task htask).1.knows
  | timer entry =>
    obtain rfl := List.mem_singleton.mp hlease
    exact h.1.knows
  | firing entry stage dispatchMark =>
    obtain rfl := List.mem_singleton.mp hlease
    exact h.1.knows
  | releasing | reaping => cases hlease

theorem knows_of_mem_leases (inv : RowsInv s) (h : lease ∈ s.leases) : s.Knows lease := by
  obtain ⟨p, hp, hlease⟩ := mem_leases.mp h
  exact knows_of_good (inv.good p hp) hlease

theorem mem_leases_of_writer (h : s.writer e = some p) (hlease : lease ∈ p.leases) :
    lease ∈ s.leases := by
  cases e with
  | write k now =>
    obtain ⟨q, hq, rfl⟩ := Option.map_eq_some_iff.mp h
    exact mem_leases.mpr ⟨q, List.mem_of_getElem? hq, hlease⟩
  | _ => cases h

theorem released_of_writer (h : s.writer e = some (.releasing claim)) : s.Released claim.lease := by
  cases e with
  | write k now =>
    obtain ⟨⟨i, q⟩, hq, rfl⟩ := Option.map_eq_some_iff.mp h
    exact .releasing i claim (List.mem_of_getElem? hq)
  | _ => cases h

/-- The leases of two processes are different. -/
theorem Inv.disjoint {p q : ℕ × Process} {rest : List (ℕ × Process)} (inv : Inv s)
    (hperm : s.processes.Perm (p :: rest)) (hq : q ∈ rest) (hlease : lease ∈ p.2.leases) :
    lease ∉ q.2.leases := by
  have hnodup : ((p :: rest).flatMap fun p => p.2.leases).Nodup :=
    (hperm.flatMap_right _).nodup_iff.mp inv.leases
  rw [List.flatMap_cons, List.nodup_append] at hnodup
  intro h
  exact hnodup.2.2 lease hlease lease (List.mem_flatMap.mpr ⟨q, hq, h⟩) rfl

/-- A released lease stays released, or is held by nobody. -/
theorem Inv.released_next (inv : Inv s) (h : Stepped options s e t) (hlease : s.Released lease) :
    t.Knows lease ∧ t.Unstarted lease := by
  obtain ⟨hk, hu, hmem⟩ := inv.released lease hlease
  refine ⟨knows_next h hk, unstarted_next h hk hu ?_⟩
  rintro entry dispatchMark hw rfl
  exact hmem (mem_leases_of_writer hw (List.mem_singleton.mpr rfl))

theorem Inv.id_le_next (inv : Inv s) (h : Stepped options s e t) :
    ∀ r ∈ t.tasks.rows, r.id ≤ t.lastId := fun _ hr =>
  (h.origin hr).id_le inv.toRowsInv h.lastId_le

theorem Inv.rows_next (inv : Inv s) (h : Stepped options s e t) :
    ∀ r ∈ t.tasks.rows, RowInv r := fun _ hr =>
  (h.origin hr).rowInv inv.toRowsInv

theorem good_next_of_none (h : Stepped options s e t) (writer : s.writer e = none) (hp : s.Good p) :
    t.Good p := by
  refine good_next h hp ?_
  rw [writer]
  intro q hq
  cases hq

/-- A row of the table, as it is. -/
theorem snapshot_of_mem {task : ScheduledTask} (hid : ∀ r ∈ s.tasks.rows, r.id ≤ s.lastId)
    (h : task ∈ s.tasks.rows) : s.Snapshot task where
  knows := by
    refine ⟨hid task h, ?_⟩
    intro r hr hrid
    rw [row_eq_of_id hr h hrid]
    exact le_rfl
  attempts r hr _ hlease := by rw [row_eq_of_id hr h (congrArg Prod.fst hlease)]
  maxAttempts r hr hrid := by rw [row_eq_of_id hr h hrid]

/-! ### Statements that no process waits for -/

theorem Inv.of_statement (inv : Inv s) (h : Stepped options s e t) (writer : s.writer e = none)
    (hprocesses : t.processes = s.processes) (hexecutors : t.executors = s.executors) : Inv t where
  id_le := inv.id_le_next h
  rows := inv.rows_next h
  good := by
    rw [hprocesses]
    exact fun p hp => good_next_of_none h writer (inv.good p hp)
  leases := by
    rw [Cluster.leases, hprocesses]
    exact inv.leases
  released := by
    intro lease hlease
    have hs : s.Released lease := by
      cases hlease with
      | releasing i claim mem => exact .releasing i claim (hprocesses ▸ mem)
      | stopped i entry stopping mem =>
        rw [hexecutors] at stopping mem
        exact .stopped i entry stopping mem
    obtain ⟨hk, hu⟩ := inv.released_next h hs
    refine ⟨hk, hu, ?_⟩
    rw [Cluster.leases, hprocesses]
    exact (inv.released lease hs).2.2
  keyed := hexecutors ▸ inv.keyed
  tracked := by
    rw [hexecutors, hprocesses]
    exact inv.tracked

/-- A claim gives out leases that nobody has had. -/
theorem Inv.of_claim {host : String} {batch : ClaimDueTasksBatch}
    {p : ScheduledTask → Bool} {claimed : Tasks × List ScheduledTask} (inv : Inv s)
    (hclaimed : Claimed s.tasks batch now p claimed)
    (h : Stepped options s e { s with
      tasks := claimed.1, processes := (i, .claimed host claimed.2) :: s.processes })
    (writer : s.writer e = none) :
    Inv { s with
      tasks := claimed.1, processes := (i, .claimed host claimed.2) :: s.processes } := by
  -- what was returned is what the update left
  have hreturned : ∀ task ∈ claimed.2, ∃ r ∈ s.tasks.rows, isDue batch now r = true ∧
      (claimValues batch now).set r = task ∧ task ∈ claimed.1.rows := by
    intro task htask
    rw [hclaimed.returned] at htask
    obtain ⟨r, hr, rfl⟩ := List.mem_map.mp htask
    obtain ⟨hr, hp⟩ := List.mem_filter.mp hr
    refine ⟨r, hr, hclaimed.due r hr hp, rfl, ?_⟩
    rw [hclaimed.rows]
    exact Table.mem_updateWhere.mpr (.inl ⟨r, hr, hp, rfl⟩)
  have hfresh : ∀ task ∈ claimed.2, ¬ s.Knows task.lease := by
    intro task htask hk
    obtain ⟨r, hr, -, rfl, -⟩ := hreturned task htask
    exact absurd (hk.2 r hr rfl) (Nat.not_succ_le_self _)
  refine ⟨⟨inv.id_le_next h, inv.rows_next h, ?_⟩, ?_, ?_, inv.keyed, ?_⟩
  · intro q hq
    rcases List.mem_cons.mp hq with rfl | hq
    · intro task htask
      obtain ⟨r, hr, hdue, rfl, hmem⟩ := hreturned task htask
      refine ⟨snapshot_of_mem (inv.id_le_next h) hmem, ?_⟩
      intro r' hr' _ hlease
      rw [row_eq_of_id hr' hmem (congrArg Prod.fst hlease)]
      exact ((inv.rows r hr).pending (pending_of_isDue hdue)).1
    · exact good_next_of_none h writer (inv.good q hq)
  · show (claimed.2.map ScheduledTask.lease ++ s.leases).Nodup
    refine List.nodup_append.mpr ⟨?_, inv.leases, ?_⟩
    · rw [hclaimed.returned, List.map_map]
      refine List.Nodup.map_on ?_ ?_
      · intro r hr r' hr' hlease
        exact row_eq_of_id (List.mem_filter.mp hr).1 (List.mem_filter.mp hr').1
          (congrArg Prod.fst hlease)
      · refine List.Nodup.filter _ (s.tasks.noClash.imp ?_)
        rintro r r' hclash rfl
        exact hclash (.inl rfl)
    · rintro lease hlease lease' hlease' rfl
      obtain ⟨task, htask, rfl⟩ := List.mem_map.mp hlease
      exact hfresh task htask (knows_of_mem_leases inv.toRowsInv hlease')
  · intro lease hlease
    have hs : s.Released lease := by
      cases hlease with
      | releasing j claim mem =>
        rcases List.mem_cons.mp mem with heq | mem
        · cases heq
        · exact .releasing j claim mem
      | stopped j entry stopping mem => exact .stopped j entry stopping mem
    obtain ⟨hk, hu⟩ := inv.released_next h hs
    obtain ⟨hknows, -, hmem⟩ := inv.released lease hs
    refine ⟨hk, hu, ?_⟩
    show lease ∉ claimed.2.map ScheduledTask.lease ++ s.leases
    rw [List.mem_append, List.mem_map]
    rintro (⟨task, htask, rfl⟩ | hmem')
    · exact hfresh task htask hknows
    · exact hmem hmem'
  · intro j hj entry hentry
    exact List.mem_cons_of_mem _ (inv.tracked j hj entry hentry)

/-- A sweep reads rows and holds none. -/
theorem Inv.of_sweep {i limit : ℕ} (inv : Inv s)
    (h : Stepped options s e { s with
      processes := (i, .reaping (s.tasks.findExpiredLeases limit now)) :: s.processes })
    (writer : s.writer e = none) :
    Inv { s with
      processes := (i, .reaping (s.tasks.findExpiredLeases limit now)) :: s.processes } := by
  refine ⟨⟨inv.id_le_next h, inv.rows_next h, ?_⟩, inv.leases, ?_, inv.keyed, ?_⟩
  · intro q hq
    rcases List.mem_cons.mp hq with rfl | hq
    · intro task htask
      have htask := List.mem_of_mem_take htask
      rw [List.mem_insertionSort] at htask
      exact snapshot_of_mem (inv.id_le_next h) (List.mem_filter.mp htask).1
    · exact good_next_of_none h writer (inv.good q hq)
  · intro lease hlease
    have hs : s.Released lease := by
      cases hlease with
      | releasing j claim mem =>
        rcases List.mem_cons.mp mem with heq | mem
        · cases heq
        · exact .releasing j claim mem
      | stopped j entry stopping mem => exact .stopped j entry stopping mem
    obtain ⟨hk, hu⟩ := inv.released_next h hs
    exact ⟨hk, hu, (inv.released lease hs).2.2⟩
  · intro j hj entry hentry
    exact List.mem_cons_of_mem _ (inv.tracked j hj entry hentry)

/-! ### Steps of one process -/

/-- A process goes on as others that hold no more leases, or give back what it held. -/
theorem Inv.of_become (inv : Inv s)
    (h : Stepped options s e t) (hk : s.processes[k]? = some (i, p))
    (hprocesses : t.processes = processes.map (Prod.mk i) ++ s.processes.eraseIdx k)
    (writer : ∀ q, s.writer e = some q → q = p)
    (good : ∀ q ∈ processes, t.Good q)
    (leases : (processes.flatMap Process.leases).Sublist p.leases)
    (releasing : ∀ claim, .releasing claim ∈ processes → claim.lease ∈ p.leases ∧
      t.Unstarted claim.lease ∧ processes.flatMap Process.leases = [])
    (stopped : ∀ j, (t.executors j).stopping = true →
      (s.executors j).stopping = true ∧ ∀ entry ∈ (t.executors j).claimedTaskById.values,
        entry ∈ (s.executors j).claimedTaskById.values)
    (keyed : ∀ j, OrderedMap.Keyed (fun entry => entry.task.id) (t.executors j).claimedTaskById)
    (tracked : ∀ j, (t.executors j).stopping = false →
      ∀ entry ∈ (t.executors j).claimedTaskById.values, (j, .timer entry) ∈ t.processes) :
    Inv t := by
  have hperm := perm_of_getElem? hk
  have hrest : ∀ q ∈ s.processes.eraseIdx k, q ∈ s.processes :=
    fun q hq => List.mem_of_mem_eraseIdx hq
  have hleases : t.leases =
      processes.flatMap Process.leases ++ (s.processes.eraseIdx k).flatMap fun q => q.2.leases := by
    rw [Cluster.leases, hprocesses, List.flatMap_append, List.flatMap_map]
  have hsleases : s.leases.Perm
      (p.leases ++ (s.processes.eraseIdx k).flatMap fun q => q.2.leases) :=
    hperm.flatMap_right _
  have hsub : ∀ lease ∈ t.leases, lease ∈ s.leases := by
    intro lease hlease
    rw [hleases] at hlease
    rw [hsleases.mem_iff]
    rcases List.mem_append.mp hlease with hl | hl
    · exact List.mem_append_left _ (leases.subset hl)
    · exact List.mem_append_right _ hl
  refine ⟨⟨inv.id_le_next h, inv.rows_next h, ?_⟩, ?_, ?_, keyed, tracked⟩
  · intro q hq
    rw [hprocesses] at hq
    rcases List.mem_append.mp hq with hq | hq
    · obtain ⟨q', hq', rfl⟩ := List.mem_map.mp hq
      exact good q' hq'
    · refine good_next h (inv.good q (hrest q hq)) ?_
      intro w hw lease hlease
      obtain rfl := writer w hw
      exact inv.disjoint hperm hq hlease
  · rw [hleases]
    exact (hsleases.nodup_iff.mp inv.leases).sublist (leases.append (List.Sublist.refl _))
  · intro lease hlease
    have hold : s.Released lease → t.Knows lease ∧ t.Unstarted lease ∧ lease ∉ t.leases := by
      intro hs
      obtain ⟨hk, hu⟩ := inv.released_next h hs
      exact ⟨hk, hu, fun hmem => (inv.released lease hs).2.2 (hsub lease hmem)⟩
    cases hlease with
    | releasing j claim mem =>
      rw [hprocesses] at mem
      rcases List.mem_append.mp mem with mem | mem
      · -- the lease was the process's own
        obtain ⟨q, hq, heq⟩ := List.mem_map.mp mem
        cases heq
        obtain ⟨hlease, hu, hnil⟩ := releasing claim hq
        have hknows := knows_of_good (inv.good _ (List.mem_of_getElem? hk)) hlease
        refine ⟨knows_next h hknows, hu, ?_⟩
        rw [hleases, hnil, List.nil_append, List.mem_flatMap]
        rintro ⟨q, hq, hmem⟩
        exact inv.disjoint hperm hq hlease hmem
      · exact hold (.releasing j claim (hrest _ mem))
    | stopped j entry stopping mem =>
      obtain ⟨hstopping, hvalues⟩ := stopped j stopping
      exact hold (.stopped j entry hstopping (hvalues entry mem))

theorem Inv.tracked_rest (inv : Inv s) (hk : s.processes[k]? = some (i, p))
    (htimer : ∀ entry, p ≠ .timer entry)
    (hprocesses : t.processes = processes.map (Prod.mk i) ++ s.processes.eraseIdx k) {j : ℕ}
    (hj : (s.executors j).stopping = false)
    (hentry : entry ∈ (s.executors j).claimedTaskById.values) :
    (j, .timer entry) ∈ t.processes := by
  rw [hprocesses]
  refine List.mem_append_right _ ?_
  rcases List.mem_cons.mp ((perm_of_getElem? hk).mem_iff.mp (inv.tracked j hj entry hentry)) with
    heq | hmem
  · exact absurd (Prod.mk.inj heq).2.symm (htimer entry)
  · exact hmem

/-- Having won, a fire has started its row. -/
theorem started_of_won {leaseMs now : ℤ} (h : (s.tasks.beginDispatch entry.claim leaseMs now).2 ≠ 0)
    (htasks : t.tasks = (s.tasks.beginDispatch entry.claim leaseMs now).1) :
    t.Started entry.task.lease := by
  obtain ⟨r, hr, hguard⟩ := List.countP_pos_iff.mp (Nat.pos_of_ne_zero h)
  intro r' hr' _ hlease
  rw [htasks] at hr'
  rcases mem_updateValues.mp hr' with ⟨r, -, -, rfl⟩ | ⟨hr', hguard'⟩
  · exact Option.some_ne_none _
  · -- the row that was updated is the one with this id
    rw [Bool.and_eq_true] at hguard
    have hid := congrArg Prod.fst (hlease.trans (Change.lease_of_isOwned hguard.1))
    rw [row_eq_of_id hr' hr hid, hguard.1, Bool.true_and, hguard.2] at hguard'
    cases hguard'

theorem Inv.of_write {tasks : Tasks} (inv : Inv s) (hk : s.processes[k]? = some (i, p))
    (hwrite : Writes (options i) s.tasks now p tasks processes)
    (h : Stepped options s (.write k now) ({ s with tasks := tasks }.become k i processes)) :
    Inv ({ s with tasks := tasks }.become k i processes) := by
  have hgood : s.Good p := inv.good _ (List.mem_of_getElem? hk)
  have hw : s.writer (.write k now) = some p := writer_write hk
  refine inv.of_become h hk rfl ?_ ?_ ?_ ?_ (fun j hj => ⟨hj, fun _ => id⟩) inv.keyed ?_
  · intro q hq
    rw [hw] at hq
    exact (Option.some.inj hq).symm
  · intro q hq
    cases hwrite with
    | release | lost | outcome => cases hq
    | won entry dispatchMark hwon =>
      obtain rfl := List.mem_singleton.mp hq
      obtain ⟨hs, -, hmark⟩ := hgood
      refine ⟨snapshot_next h hs, started_of_won (s := s) hwon rfl, ?_⟩
      intro hunset
      refine undispatched_next h hs.knows (hmark hunset) ?_
      intro entry' stage hwriter
      rw [hw, hunset] at hwriter
      cases hwriter
    | mark entry stage hstage =>
      obtain rfl := List.mem_singleton.mp hq
      obtain ⟨hs, hstarted, -⟩ := hgood
      rw [if_neg hstage] at hstarted
      refine ⟨snapshot_next h hs, ?_, nofun⟩
      rw [if_neg hstage]
      exact started_next h hs.knows hstarted
    | recover task expired =>
      obtain rfl := List.mem_singleton.mp hq
      exact fun task' htask' => snapshot_next h (hgood task' (List.mem_cons_of_mem _ htask'))
  · cases hwrite with
    | release | lost | outcome | recover => exact List.nil_sublist _
    | won | mark => exact List.Sublist.refl _
  · intro claim hclaim
    cases hwrite with
    | release | lost | outcome => cases hclaim
    | won | mark | recover => cases List.mem_singleton.mp hclaim
  · intro j hj entry hentry
    refine inv.tracked_rest hk ?_ rfl hj hentry
    rintro entry rfl
    cases hwrite

/-! ### Steps between two statements -/

theorem begin_ne_unset (dispatchMark : DispatchMark) : dispatchMark.begin ≠ .unset := by
  cases dispatchMark <;> exact nofun

/-- A fire that goes on, with its executor, towards another stage. -/
theorem good_firing {stage stage' : FireStage} {dispatchMark dispatchMark' : DispatchMark}
    (h : s.Good (.firing entry stage dispatchMark))
    (hstage : stage = .confirming ↔ stage' = .confirming)
    (hmark : dispatchMark' = .unset → dispatchMark = .unset) :
    s.Good (.firing entry stage' dispatchMark') := by
  obtain ⟨hs, hrow, hundispatched⟩ := h
  refine ⟨hs, ?_, fun hunset => hundispatched (hmark hunset)⟩
  simpa only [hstage] using hrow

/-- What a process may rely on once it has gone on. -/
theorem Goes.good {executor executor' : Executor} {p q : Process} (inv : Inv s)
    (h : Goes executor e p executor' processes) (hp : s.Good p) (hq : q ∈ processes) :
    s.Good q := by
  cases h with
  | lost => cases hq
  | lostMark k entry stage =>
    obtain rfl := List.mem_singleton.mp hq
    exact good_firing hp Iff.rfl nofun
  | lostRow k task expired =>
    obtain rfl := List.mem_singleton.mp hq
    exact fun task htask => hp task (List.mem_cons_of_mem _ htask)
  | schedule k host tasks aborted =>
    unfold Executor.schedule at hq
    split_ifs at hq
    · obtain ⟨task, -, rfl⟩ := List.mem_map.mp hq
      trivial
    · obtain ⟨task, htask, rfl⟩ := List.mem_map.mp hq
      exact hp task htask
  | fire k entry registered =>
    unfold Executor.fire at hq
    cases registered with
    | false =>
      obtain rfl := List.mem_singleton.mp hq
      trivial
    | true =>
      obtain rfl := List.mem_singleton.mp hq
      obtain ⟨hs, hu⟩ := hp
      refine ⟨hs, hu, ?_⟩
      intro _ r hr running hlease
      exact (inv.rows r hr).dispatched running (hu r hr running hlease)
  | execute k entry dispatchMark =>
    obtain rfl := List.mem_singleton.mp hq
    exact good_firing hp (by simp) id
  | dispatched k entry dispatchMark =>
    obtain rfl := List.mem_singleton.mp hq
    exact good_firing hp Iff.rfl fun h => absurd h (begin_ne_unset _)
  | settle k entry dispatchMark result =>
    obtain rfl := List.mem_singleton.mp hq
    refine good_firing hp (by simp) ?_
    split_ifs
    · exact fun h => absurd h (begin_ne_unset _)
    · exact id
  | abortSweep => cases hq

theorem Goes.leases {executor executor' : Executor} (h : Goes executor e p executor' processes) :
    (processes.flatMap Process.leases).Sublist p.leases := by
  cases h with
  | lost => exact List.nil_sublist _
  | lostMark | lostRow => exact List.Sublist.refl _
  | schedule k host tasks aborted =>
    unfold Executor.schedule
    split_ifs
    · have : (Executor.handBackClaims host tasks).flatMap Process.leases = [] := by
        simp [Executor.handBackClaims, Process.leases]
      rw [this]
      exact List.nil_sublist _
    · have : (tasks.map fun task => Process.timer ⟨host, task⟩).flatMap Process.leases =
          tasks.map ScheduledTask.lease := by
        rw [List.flatMap_map, List.map_eq_flatMap]
        rfl
      rw [this]
      exact List.Sublist.refl _
  | fire k entry registered =>
    cases registered with
    | false => exact List.nil_sublist _
    | true => exact List.Sublist.refl _
  | execute | dispatched | settle | abortSweep => exact List.Sublist.refl _

/-- A process that gives back a lease held it, and holds none afterwards. -/
theorem Goes.releasing {executor executor' : Executor} (h : Goes executor e p executor' processes)
    (hp : s.Good p) (hclaim : .releasing claim ∈ processes) : claim.lease ∈ p.leases ∧
      s.Knows claim.lease ∧ s.Unstarted claim.lease ∧ processes.flatMap Process.leases = [] := by
  cases h with
  | lost | abortSweep => cases hclaim
  | lostMark | lostRow | execute | dispatched | settle => cases List.mem_singleton.mp hclaim
  | schedule k host tasks aborted =>
    unfold Executor.schedule at hclaim ⊢
    split_ifs at hclaim ⊢
    · obtain ⟨task, htask, heq⟩ := List.mem_map.mp hclaim
      cases heq
      obtain ⟨hs, hu⟩ := hp task htask
      exact ⟨List.mem_map_of_mem htask, hs.knows, hu,
        by simp [Executor.handBackClaims, Process.leases]⟩
    · obtain ⟨task, -, heq⟩ := List.mem_map.mp hclaim
      cases heq
  | fire k entry registered =>
    cases registered with
    | false =>
      cases List.mem_singleton.mp hclaim
      exact ⟨List.mem_singleton.mpr rfl, hp.1.knows, hp.2, rfl⟩
    | true => cases List.mem_singleton.mp hclaim

theorem setExecutor_executors {i j : ℕ} {executor : Executor} :
    (s.setExecutor i executor).executors j = if j = i then executor else s.executors j :=
  Function.update_apply ..

theorem Inv.keyed_setExecutor {executor : Executor} (inv : Inv s)
    (h : OrderedMap.Keyed (fun entry => entry.task.id) executor.claimedTaskById) (j : ℕ) :
    OrderedMap.Keyed (fun entry => entry.task.id)
      ((s.setExecutor i executor).executors j).claimedTaskById := by
  rw [setExecutor_executors]
  split_ifs
  · exact h
  · exact inv.keyed j

/-- What an executor tracks after it has taken over the tasks of a claim. -/
theorem scheduleAll (executor : Executor) (entries : List ClaimedEntry)
    (h : OrderedMap.Keyed (fun entry => entry.task.id) executor.claimedTaskById) :
    (entries.foldl Executor.scheduleClaimed executor).stopping = executor.stopping ∧
    OrderedMap.Keyed (fun entry => entry.task.id)
      (entries.foldl Executor.scheduleClaimed executor).claimedTaskById ∧
    ∀ entry ∈ (entries.foldl Executor.scheduleClaimed executor).claimedTaskById.values,
      entry ∈ entries ∨ entry ∈ executor.claimedTaskById.values := by
  induction entries generalizing executor with
  | nil => exact ⟨rfl, h, fun _ => .inr⟩
  | cons entry entries ih =>
    obtain ⟨hstopping, hkeyed, hvalues⟩ := ih (executor.scheduleClaimed entry) (h.set entry)
    refine ⟨hstopping, hkeyed, ?_⟩
    intro entry' hentry'
    rcases hvalues entry' hentry' with hmem | hmem
    · exact .inl (List.mem_cons_of_mem _ hmem)
    · rcases OrderedMap.mem_values_set hmem with rfl | hmem
      · exact .inl (List.mem_cons_self ..)
      · exact .inr hmem

/-- What the executor of a process tracks once the process has gone on. -/
theorem Goes.executor {executor executor' : Executor} (h : Goes executor e p executor' processes)
    (hkeyed : OrderedMap.Keyed (fun entry => entry.task.id) executor.claimedTaskById) :
    executor'.stopping = executor.stopping ∧
    OrderedMap.Keyed (fun entry => entry.task.id) executor'.claimedTaskById ∧
    ∀ entry ∈ executor'.claimedTaskById.values,
      (entry ∈ executor.claimedTaskById.values ∧ p ≠ .timer entry) ∨
      (executor.stopping = false ∧ .timer entry ∈ processes) := by
  cases h with
  | lost k p htimer => exact ⟨rfl, hkeyed, fun entry hentry => .inl ⟨hentry, htimer entry⟩⟩
  | lostMark | lostRow | execute | dispatched | settle | abortSweep =>
    exact ⟨rfl, hkeyed, fun entry hentry => .inl ⟨hentry, nofun⟩⟩
  | schedule k host tasks aborted =>
    unfold Executor.schedule
    split_ifs with habort
    · exact ⟨rfl, hkeyed, fun entry hentry => .inl ⟨hentry, nofun⟩⟩
    · obtain ⟨hstopping, hkeyed', hvalues⟩ :=
        scheduleAll executor (tasks.map (ClaimedEntry.mk host)) hkeyed
      refine ⟨hstopping, hkeyed', ?_⟩
      intro entry hentry
      rcases hvalues entry hentry with hmem | hmem
      · obtain ⟨task, htask, rfl⟩ := List.mem_map.mp hmem
        refine .inr ⟨?_, List.mem_map_of_mem htask⟩
        rw [Bool.or_eq_true, not_or] at habort
        exact Bool.eq_false_of_not_eq_true habort.1
      · exact .inl ⟨hmem, nofun⟩
  | fire k entry registered =>
    refine ⟨rfl, hkeyed.delete entry.task.id, ?_⟩
    intro entry' hentry'
    have hentry' : entry' ∈ (executor.claimedTaskById.delete entry.task.id).values := hentry'
    rw [(hkeyed.delete entry.task.id).mem_values, OrderedMap.get?_delete] at hentry'
    split_ifs at hentry' with hid
    refine .inl ⟨hkeyed.mem_values.mpr hentry', ?_⟩
    intro heq
    cases heq
    exact hid rfl

theorem Inv.of_goes {executor : Executor} (inv : Inv s) (hk : s.processes[k]? = some (i, p))
    (hgoes : Goes (s.executors i) e p executor processes)
    (h : Stepped options s e ((s.setExecutor i executor).become k i processes)) :
    Inv ((s.setExecutor i executor).become k i processes) := by
  have hgood : s.Good p := inv.good _ (List.mem_of_getElem? hk)
  have hw : s.writer e = none := writer_of_goes hgoes
  obtain ⟨hstopping, hkeyed, hvalues⟩ := hgoes.executor (inv.keyed i)
  have hexecutors : ∀ j, ((s.setExecutor i executor).become k i processes).executors j =
      if j = i then executor else s.executors j := fun j => setExecutor_executors
  refine inv.of_become h hk rfl ?_ ?_ hgoes.leases ?_ ?_ (inv.keyed_setExecutor hkeyed) ?_
  · rw [hw]
    intro q hq
    cases hq
  · exact fun q hq => good_next_of_none h hw (hgoes.good inv hgood hq)
  · intro claim hclaim
    obtain ⟨hlease, hknows, hu, hnil⟩ := hgoes.releasing hgood hclaim
    refine ⟨hlease, unstarted_next h hknows hu ?_, hnil⟩
    rw [hw]
    intro entry dispatchMark hnone
    cases hnone
  · intro j hj
    rw [hexecutors] at hj ⊢
    split_ifs at hj ⊢ with hji
    · subst hji
      rw [hstopping] at hj
      refine ⟨hj, ?_⟩
      intro entry hentry
      rcases hvalues entry hentry with ⟨hmem, -⟩ | ⟨hfalse, -⟩
      · exact hmem
      · rw [hfalse] at hj
        cases hj
    · exact ⟨hj, fun _ => id⟩
  · intro j hj entry hentry
    rw [hexecutors] at hj hentry
    split_ifs at hj hentry with hji
    · subst hji
      rw [hstopping] at hj
      rcases hvalues entry hentry with ⟨hmem, hne⟩ | ⟨-, hmem⟩
      · refine List.mem_append_right _ ?_
        rcases List.mem_cons.mp ((perm_of_getElem? hk).mem_iff.mp (inv.tracked j hj entry hmem))
          with heq | hrest
        · exact absurd (Prod.mk.inj heq).2.symm hne
        · exact hrest
      · exact List.mem_append_left _ (List.mem_map_of_mem hmem)
    · refine List.mem_append_right _ ?_
      rcases List.mem_cons.mp ((perm_of_getElem? hk).mem_iff.mp (inv.tracked j hj entry hentry))
        with heq | hrest
      · exact absurd (Prod.mk.inj heq).1 hji
      · exact hrest

/-! ### Steps of a whole executor -/

theorem Inv.of_stop (inv : Inv s) (h : Stepped options s e (s.stop i))
    (writer : s.writer e = none) : Inv (s.stop i) := by
  have hprocesses : ∀ q, q ∈ (s.stop i).processes ↔
      (∃ entry ∈ (s.executors i).claimedTaskById.values, (i, .releasing entry.claim) = q) ∨
      (q ∈ s.processes ∧ Cluster.isTimerOf i q = false) := by
    intro q
    simp [Cluster.stop]
  have hexecutors : ∀ j, (s.stop i).executors j =
      if j = i then { s.executors i with stopping := true } else s.executors j :=
    fun j => setExecutor_executors
  have hleases : ∀ lease ∈ (s.stop i).leases, ∃ q ∈ s.processes, Cluster.isTimerOf i q = false ∧
      lease ∈ q.2.leases := by
    intro lease hlease
    obtain ⟨q, hq, hlease⟩ := mem_leases.mp hlease
    rcases (hprocesses q).mp hq with ⟨entry, -, rfl⟩ | ⟨hq, htimer⟩
    · cases hlease
    · exact ⟨q, hq, htimer, hlease⟩
  -- what the executor tracks is held by the timers that are cancelled
  have htracked : ∀ entry ∈ (s.executors i).claimedTaskById.values,
      (s.stop i).Knows entry.task.lease ∧ (s.stop i).Unstarted entry.task.lease ∧
        entry.task.lease ∉ (s.stop i).leases := by
    intro entry hentry
    cases hstopping : (s.executors i).stopping with
    | true =>
      have hs : s.Released entry.task.lease := .stopped i entry hstopping hentry
      obtain ⟨hk, hu⟩ := inv.released_next h hs
      refine ⟨hk, hu, fun hmem => (inv.released _ hs).2.2 ?_⟩
      obtain ⟨q, hq, -, hlease⟩ := hleases _ hmem
      exact mem_leases.mpr ⟨q, hq, hlease⟩
    | false =>
      have htimer := inv.tracked i hstopping entry hentry
      obtain ⟨hsnapshot, hu⟩ := good_next_of_none h writer (inv.good _ htimer)
      refine ⟨hsnapshot.knows, hu, ?_⟩
      intro hmem
      obtain ⟨q, hq, hnot, hlease⟩ := hleases _ hmem
      obtain ⟨before, after, hsplit⟩ := List.append_of_mem htimer
      have hperm : s.processes.Perm ((i, .timer entry) :: (before ++ after)) := by
        rw [hsplit]
        exact List.perm_middle
      rcases List.mem_cons.mp (hperm.mem_iff.mp hq) with rfl | hrest
      · simp [Cluster.isTimerOf] at hnot
      · exact inv.disjoint hperm hrest (List.mem_singleton.mpr rfl) hlease
  refine ⟨⟨inv.id_le_next h, inv.rows_next h, ?_⟩, ?_, ?_, ?_, ?_⟩
  · intro q hq
    rcases (hprocesses q).mp hq with ⟨entry, -, rfl⟩ | ⟨hq, -⟩
    · trivial
    · exact good_next_of_none h writer (inv.good q hq)
  · have hreleases : ((s.executors i).claimedTaskById.values.map fun entry =>
        (i, Process.releasing entry.claim)).flatMap (fun q => q.2.leases) = [] := by
      simp [Process.leases]
    show (List.flatMap _ (_ ++ _)).Nodup
    rw [List.flatMap_append, hreleases, List.nil_append]
    exact inv.leases.sublist (List.filter_sublist.flatMap _)
  · intro lease hlease
    cases hlease with
    | releasing j claim mem =>
      rcases (hprocesses _).mp mem with ⟨entry, hentry, heq⟩ | ⟨mem, -⟩
      · cases heq
        exact htracked entry hentry
      · have hs : s.Released claim.lease := .releasing j claim mem
        obtain ⟨hk, hu⟩ := inv.released_next h hs
        refine ⟨hk, hu, fun hmem => (inv.released _ hs).2.2 ?_⟩
        obtain ⟨q, hq, -, hlease⟩ := hleases _ hmem
        exact mem_leases.mpr ⟨q, hq, hlease⟩
    | stopped j entry stopping mem =>
      rw [hexecutors] at stopping mem
      split_ifs at stopping mem with hji
      · exact htracked entry mem
      · have hs : s.Released entry.task.lease := .stopped j entry stopping mem
        obtain ⟨hk, hu⟩ := inv.released_next h hs
        refine ⟨hk, hu, fun hmem => (inv.released _ hs).2.2 ?_⟩
        obtain ⟨q, hq, -, hlease⟩ := hleases _ hmem
        exact mem_leases.mpr ⟨q, hq, hlease⟩
  · intro j
    rw [hexecutors]
    split_ifs
    · exact inv.keyed i
    · exact inv.keyed j
  · intro j hj entry hentry
    rw [hexecutors] at hj hentry
    split_ifs at hj hentry with hji
    refine (hprocesses _).mpr (.inr ⟨inv.tracked j hj entry hentry, ?_⟩)
    simpa [Cluster.isTimerOf] using hji

/-- A step that only loses processes, and what an executor tracks. -/
theorem Inv.of_loss {executor : Executor} {keep : ℕ × Process → Bool} (inv : Inv s)
    (hvalues : executor.claimedTaskById = .empty)
    (h : Stepped options s e { s.setExecutor i executor with
      processes := s.processes.filter keep }) (writer : s.writer e = none)
    (hkeep : ∀ j ≠ i, ∀ p, keep (j, p) = true) :
    Inv { s.setExecutor i executor with processes := s.processes.filter keep } := by
  have hsub : ∀ q ∈ s.processes.filter keep, q ∈ s.processes :=
    fun q hq => (List.mem_filter.mp hq).1
  have hleases := (s.processes.filter_sublist (p := keep)).flatMap fun q => q.2.leases
  refine ⟨⟨inv.id_le_next h, inv.rows_next h, ?_⟩, inv.leases.sublist hleases, ?_,
    inv.keyed_setExecutor (by rw [hvalues]; exact OrderedMap.Keyed.empty), ?_⟩
  · exact fun q hq => good_next_of_none h writer (inv.good q (hsub q hq))
  · intro lease hlease
    have hs : s.Released lease := by
      cases hlease with
      | releasing j claim mem => exact .releasing j claim (hsub _ mem)
      | stopped j entry stopping mem =>
        rw [setExecutor_executors] at stopping mem
        split_ifs at stopping mem with hji
        · rw [hvalues] at mem
          cases mem
        · exact .stopped j entry stopping mem
    obtain ⟨hk, hu⟩ := inv.released_next h hs
    exact ⟨hk, hu, fun hmem => (inv.released _ hs).2.2 (hleases.subset hmem)⟩
  · intro j hj entry hentry
    rw [setExecutor_executors] at hj hentry
    split_ifs at hj hentry with hji
    · rw [hvalues] at hentry
      cases hentry
    · exact List.mem_filter.mpr ⟨inv.tracked j hj entry hentry, hkeep j hji _⟩

/-! ### Runs -/

/-- **One step keeps the invariant.** -/
theorem Inv.step (inv : Inv s) (h : Stepped options s e t) : Inv t := by
  have h' := h
  cases h with
  | statement _ tasks lastId _ _ writer => exact inv.of_statement h' writer rfl rfl
  | claim i host taskTypes locked batch now p claimed hclaimed =>
    exact inv.of_claim hclaimed h' rfl
  | sweep i limit now => exact inv.of_sweep h' rfl
  | write k i now p tasks processes hk hwrite => exact inv.of_write hk hwrite h'
  | goes _ k i p executor processes hk hgoes => exact inv.of_goes hk hgoes h'
  | stop i => exact inv.of_stop h' rfl
  | clear i stopping =>
    have hall : s.processes.filter (fun _ => true) = s.processes := List.filter_true s.processes
    have hclear : s.setExecutor i { s.executors i with claimedTaskById := .empty } =
        { s.setExecutor i { s.executors i with claimedTaskById := .empty } with
          processes := s.processes.filter fun _ => true } := by
      rw [hall]
      rfl
    rw [hclear] at h' ⊢
    exact inv.of_loss rfl h' rfl fun _ _ _ => rfl
  | crash i =>
    refine inv.of_loss rfl h' rfl ?_
    intro j hj p
    exact decide_eq_true hj

theorem inv_initial : Inv .initial where
  id_le _ hr := absurd hr List.not_mem_nil
  rows _ hr := absurd hr List.not_mem_nil
  good _ hp := absurd hp List.not_mem_nil
  leases := List.nodup_nil
  released lease h := by
    cases h with
    | releasing i claim mem => exact absurd mem List.not_mem_nil
    | stopped i entry stopping mem => exact absurd mem List.not_mem_nil
  keyed _ := OrderedMap.Keyed.empty
  tracked _ _ _ hentry := absurd hentry List.not_mem_nil

end Leases

end N8n.Scheduler
