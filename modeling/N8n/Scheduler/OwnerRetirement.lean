import Mathlib.Data.String.Basic
import N8n.Scheduler.OwnerCoverage

/-!
# Which jobs reconciliation deletes

A job is deleted when the last answer about its owner was that the owner is gone, and when it was
quarantined for the grace period at the clock of the pass. An owner that a second answer finds alive
keeps its jobs.

## Main definitions

* `lastAnswer`: the last answer about an owner
* `Justified`: every deletion so far was of such jobs

## Main results

* `justified_passes`: no pass deletes anything else
* `passes_visit_owners`: what a chain of passes checks and deletes
-/

namespace N8n.Scheduler.Reconciliation

variable {T O : Type} {entry : Entry T O} {jobs : List (OwnedJob T O)}

/-! ## Logs -/

def Entry.isDeletion : Entry T O → Bool
  | .deleted _ _ _ => true
  | .startedOver | .unclaimedOwnerType _ | .asked _ _ _ | .resolverFailed _ | .quarantined _ _
  | .revived _ _ _ | .reviveClockFailed _ _ | .page _ _ | .stoppedBefore _ _ => false

/-- The operation deletes nothing. -/
def Sparing (w w' : World T O) : Prop :=
  ∃ entries, w'.log = w.log ++ entries ∧ ∀ entry ∈ entries, entry.isDeletion = false

section Sparing

variable {w w' w'' : World T O}

theorem Sparing.of_log (h : w'.log = w.log) : Sparing w w' := ⟨[], by simpa using h, nofun⟩

theorem Sparing.trans (h : Sparing w w') (k : Sparing w' w'') : Sparing w w'' := by
  obtain ⟨es, hlog, hes⟩ := h
  obtain ⟨fs, hlog', hfs⟩ := k
  refine ⟨es ++ fs, by rw [hlog', hlog, List.append_assoc], fun entry hentry => ?_⟩
  rcases List.mem_append.mp hentry with hentry | hentry
  · exact hes entry hentry
  · exact hfs entry hentry

theorem Sparing.logged (h : Sparing w w') (hentry : entry.isDeletion = false) :
    Sparing w (w'.logged [entry]) :=
  h.trans ⟨[entry], rfl, fun _ he => List.mem_singleton.mp he ▸ hentry⟩

variable {env : Surroundings T O} {options : ReconciliationOptions} {ownerType : T}
  {clock : SweepClock} {ownerIds : List O}

theorem sparing_begun : Sparing w (begun env w) := .of_log rfl

theorem sparing_askLiveness : Sparing w (askLiveness env ownerType ownerIds w).2 := by
  unfold askLiveness
  dsimp only
  split
  · exact sparing_begun.logged rfl
  · exact sparing_begun.logged rfl

theorem sparing_lifts {now : ℤ} {revived lifted : ℕ} :
    Sparing w (lifts env options now jobs revived lifted ownerIds w).2 := by
  induction jobs generalizing revived lifted ownerIds w with
  | nil => exact .of_log rfl
  | cons job jobs ih =>
    have hplan : Sparing w (nextRunAtFor env options job now w).2 := by
      unfold nextRunAtFor
      split
      · exact .of_log rfl
      · exact (Sparing.of_log rfl).logged rfl
    rw [lifts]
    split_ifs
    · exact .of_log rfl
    · exact (hplan.trans (.of_log rfl)).trans ih
    · exact (Sparing.of_log rfl).trans ih

variable [LinearOrder T] [LinearOrder O]

theorem sparing_revive : Sparing w (revive env options ownerType ownerIds w).2 := by
  unfold revive
  dsimp only
  split_ifs
  · exact .of_log rfl
  · exact .of_log rfl
  · exact ((Sparing.of_log rfl).trans sparing_lifts).logged rfl
  · exact (Sparing.of_log rfl).trans sparing_lifts

end Sparing

/-! ## Answers -/

section Answers

variable [DecidableEq T] [DecidableEq O] (ownerType : T) (ownerId : O)

/-- What an entry says about an owner. -/
def Entry.answer : Entry T O → Option Bool
  | .asked t alive missing =>
    if t = ownerType then
      if ownerId ∈ missing then some false else if ownerId ∈ alive then some true else none
    else none
  | .startedOver | .unclaimedOwnerType _ | .resolverFailed _ | .quarantined _ _ | .deleted _ _ _
  | .revived _ _ _ | .reviveClockFailed _ _ | .page _ _ | .stoppedBefore _ _ => none

/-- Whether the owner was alive when a resolver was asked about it for the last time. -/
def lastAnswer (log : List (Entry T O)) : Option Bool :=
  (log.filterMap (Entry.answer ownerType ownerId)).getLast?

variable {ownerType ownerId} {log : List (Entry T O)}

theorem lastAnswer_asked {alive missing : List O} (h : ownerId ∈ missing) :
    lastAnswer ownerType ownerId (log ++ [.asked ownerType alive missing]) = some false := by
  rw [lastAnswer, List.filterMap_append]
  simp [Entry.answer, h]

theorem lastAnswer_silent (h : entry.answer ownerType ownerId = none) :
    lastAnswer ownerType ownerId (log ++ [entry]) = lastAnswer ownerType ownerId log := by
  rw [lastAnswer, List.filterMap_append]
  simp [h, lastAnswer]

end Answers

variable [LinearOrder T] [LinearOrder O] {env : Surroundings T O} {options : ReconciliationOptions}

/-- The job may be deleted: when its owner was last asked about it was gone, and the job has been in
quarantine for the grace period. -/
def Deletable (options : ReconciliationOptions) (ownerType : T) (now : ℤ) (log : List (Entry T O))
    (job : OwnedJob T O) : Prop :=
  job.ownerType = ownerType ∧ lastAnswer ownerType job.ownerId log = some false ∧
    ∃ stamp, job.orphanedAt = some stamp ∧
      stamp + toMilliseconds options.quarantineGraceSeconds ≤ now

def Justified (options : ReconciliationOptions) (log : List (Entry T O)) : Prop :=
  ∀ before ownerType now jobs, before ++ [.deleted ownerType now jobs] <+: log →
    ∀ job ∈ jobs, Deletable options ownerType now before job

section Justified

variable {log : List (Entry T O)} {ownerType : T} {clock : SweepClock} {ownerIds : List O}
  {w w' : World T O} {resumeFrom : Option (ReconciliationCursor T O)} {liveness : Liveness O}

theorem Justified.snoc (h : Justified options log)
    (hentry : ∀ ownerType now jobs, entry = .deleted ownerType now jobs →
      ∀ job ∈ jobs, Deletable options ownerType now log job) :
    Justified options (log ++ [entry]) := by
  intro before ownerType now jobs hprefix
  rcases List.prefix_concat_iff.mp hprefix with heq | hprefix
  · obtain ⟨rfl, hlast⟩ := List.append_inj' heq rfl
    exact hentry ownerType now jobs (List.singleton_inj.mp hlast).symm
  · exact h before ownerType now jobs hprefix

theorem Justified.append (h : Justified options log) {entries : List (Entry T O)}
    (hentries : ∀ entry ∈ entries, entry.isDeletion = false) :
    Justified options (log ++ entries) := by
  induction entries using List.reverseRecOn with
  | nil => simpa using h
  | append_singleton entries entry ih =>
    rw [← List.append_assoc]
    refine (ih fun e he => hentries e (List.mem_append_left _ he)).snoc ?_
    rintro ownerType now jobs rfl
    exact absurd (hentries _ (List.mem_append_right _ (List.mem_singleton.mpr rfl))) nofun

theorem Justified.sparing (h : Justified options w.log) (hs : Sparing w w') :
    Justified options w'.log := by
  obtain ⟨entries, hlog, hentries⟩ := hs
  rw [hlog]
  exact h.append hentries

/-- Only jobs whose quarantine has run out are deleted, of owners that are gone. -/
theorem Justified.deleteExpired (h : Justified options w.log)
    (hclock : clock.quarantinedBefore = secondsBefore clock.now options.quarantineGraceSeconds)
    (hmissing : ∀ ownerId ∈ ownerIds, lastAnswer ownerType ownerId w.log = some false) :
    Justified options (deleteExpired env ownerType ownerIds clock w).2.log := by
  unfold Reconciliation.deleteExpired
  dsimp only
  split_ifs
  · exact h
  · refine Justified.snoc h ?_
    rintro _ _ _ ⟨⟩ job hjob
    obtain ⟨-, hdelete⟩ := List.mem_filter.mp hjob
    obtain ⟨htype, hid, stamp, hstamp, hrun⟩ := of_decide_eq_true hdelete
    refine ⟨htype, hmissing _ hid, stamp, hstamp, ?_⟩
    rw [hclock, secondsBefore] at hrun
    omega
  · exact h

theorem Justified.settlePage (h : Justified options w.log) {quarantined : ℕ}
    (hclock : clock.quarantinedBefore = secondsBefore clock.now options.quarantineGraceSeconds)
    (hmissing : ∀ ownerId ∈ liveness.missing,
      lastAnswer ownerType ownerId w.log = some false) :
    Justified options
      (settlePage env options ownerType clock ownerIds quarantined liveness w).2.log := by
  have hdeleted : Justified options
      (Reconciliation.deleteExpired env ownerType liveness.missing clock w).2.log :=
    h.deleteExpired hclock hmissing
  have hrevive : Justified options (revive env options ownerType liveness.alive
      (Reconciliation.deleteExpired env ownerType liveness.missing clock w).2).2.log :=
    hdeleted.sparing sparing_revive
  unfold Reconciliation.settlePage
  dsimp only
  split_ifs
  · exact hrevive
  · exact hrevive
  · split
    · exact hrevive
    · exact hrevive

omit [LinearOrder T] [LinearOrder O] in
theorem log_askLiveness (h : askLiveness env ownerType ownerIds w = (some liveness, w')) :
    w'.log = w.log ++ [.asked ownerType liveness.alive liveness.missing] := by
  unfold askLiveness at h
  dsimp only at h
  split at h
  · cases h
  · cases h
    rfl

/-- Quarantining says nothing about an owner. -/
theorem lastAnswer_quarantine {ownerId : O} :
    lastAnswer ownerType ownerId (quarantine env ownerType ownerIds clock w).2.log =
      lastAnswer ownerType ownerId w.log := by
  unfold quarantine
  dsimp only
  split_ifs
  · rfl
  · exact lastAnswer_silent rfl
  · rfl

theorem sparing_quarantine : Sparing w (quarantine env ownerType ownerIds clock w).2 := by
  unfold quarantine
  dsimp only
  split_ifs
  · exact .of_log rfl
  · exact (Sparing.of_log rfl).logged rfl
  · exact .of_log rfl

theorem Justified.sweepPage (h : Justified options w.log) {after : Option O}
    (hclock : clock.quarantinedBefore = secondsBefore clock.now options.quarantineGraceSeconds) :
    Justified options (sweepPage env options ownerType clock after w).2.log := by
  let read := findOwnerIds env ownerType clock.settledBefore options.batchSize after w
  have hread : Justified options read.2.log := h
  unfold Reconciliation.sweepPage
  dsimp only
  split_ifs
  · exact hread
  · have hasked := hread.sparing (@sparing_askLiveness T O read.2 env ownerType read.1)
    split
    · rename_i answered hanswered
      rw [hanswered] at hasked
      exact hasked
    · rename_i alive missing answered hanswered
      rw [hanswered] at hasked
      have hmissing : ∀ ownerId ∈ missing,
          lastAnswer ownerType ownerId answered.log = some false := by
        intro ownerId hid
        rw [log_askLiveness hanswered]
        exact lastAnswer_asked hid
      let noted : World T O :=
        { answered with
          checked := answered.checked ++ read.1.map fun ownerId => (ownerType, ownerId) }
      have hnoted : Justified options noted.log := hasked
      have hquarantined : Justified options (quarantine env ownerType missing clock noted).2.log :=
        hnoted.sparing sparing_quarantine
      split_ifs
      · have hrechecked := hquarantined.sparing (@sparing_askLiveness T O _ env ownerType missing)
        split
        · rename_i rechecked hrecheck
          rw [hrecheck] at hrechecked
          exact hrechecked
        · rename_i recheck rechecked hrecheck
          rw [hrecheck] at hrechecked
          refine hrechecked.settlePage hclock fun ownerId hid => ?_
          rw [log_askLiveness hrecheck]
          exact lastAnswer_asked hid
      · refine hquarantined.settlePage hclock fun ownerId hid => ?_
        rw [lastAnswer_quarantine]
        exact hmissing ownerId hid

theorem Justified.logged (h : Justified options w.log) (hentry : entry.isDeletion = false) :
    Justified options (w.logged [entry]).log :=
  h.sparing ((Sparing.of_log rfl).logged hentry)

theorem Justified.sweepPages (h : Justified options w.log) {left pages : ℕ} {totals : SweepTotals}
    {after : Option O}
    (hclock : clock.quarantinedBefore = secondsBefore clock.now options.quarantineGraceSeconds) :
    Justified options
      (sweepPages env options ownerType clock left totals pages after w).2.log := by
  induction left generalizing totals pages after w with
  | zero => exact h
  | succ left ih =>
    have hpage : Justified options
        (Reconciliation.sweepPage env options ownerType clock after w).2.log :=
      h.sweepPage hclock
    rw [Reconciliation.sweepPages]
    split_ifs
    · exact h
    · generalize Reconciliation.sweepPage env options ownerType clock after w = swept at hpage ⊢
      obtain ⟨page, w'⟩ := swept
      cases page with
      | failed _ => exact hpage.logged rfl
      | unfinished _ => exact hpage.logged rfl
      | drained _ => exact hpage.logged rfl
      | swept _ last => exact ih (hpage.logged rfl)

theorem Justified.walk (h : Justified options w.log) {ownerTypes : List T} {budget : ℕ}
    {summary : ReconciliationSummary T O}
    (hclock : clock.quarantinedBefore = secondsBefore clock.now options.quarantineGraceSeconds) :
    Justified options
      (walk env options clock resumeFrom ownerTypes budget summary w).2.log := by
  induction ownerTypes generalizing budget summary w with
  | nil => exact h
  | cons ownerType ownerTypes ih =>
    rw [Reconciliation.walk]
    split_ifs
    · exact h.logged rfl
    · exact ih (h.sweepPages hclock)
    · exact ih (h.logged rfl)

theorem Justified.reconcile (h : Justified options w.log) :
    Justified options (reconcile env options resumeFrom w).2.log := by
  unfold Reconciliation.reconcile
  dsimp only
  refine Justified.walk ?_ rfl
  split_ifs
  · exact Justified.logged h rfl
  · exact h

end Justified

/-- **No pass deletes anything else.** -/
theorem justified_passes (n : ℕ) : Justified options (passes env options jobs n).world.log := by
  induction n with
  | zero =>
    intro before ownerType now deleted hprefix
    exact absurd (List.prefix_nil.mp hprefix) (by simp)
  | succ n ih => exact ih.reconcile

/-- **What a chain of passes checks and deletes.** When a pass reports that it has drained, every
owner that was in the table throughout is checked, provided that its resolver answers; exactly once,
if nothing has made a pass go back. Jobs are deleted only when their owner was gone by the last
answer about it, and when they were in quarantine for the grace period. -/
theorem passes_visit_owners (env : Surroundings T O) (options : ReconciliationOptions)
    (jobs : List (OwnedJob T O)) (n : ℕ) :
    ((passes env options jobs n).drained = true →
      ∀ ownerType ownerId, Stays (passes env options jobs n).world ownerType ownerId →
        Answers env ownerType →
        (ownerType, ownerId) ∈ (passes env options jobs n).world.checked ∧
          (Orderly (passes env options jobs n).world →
            (∀ k < n, (passes env options jobs k).drained = false) →
            (passes env options jobs n).world.checked.count (ownerType, ownerId) = 1)) ∧
      Justified options (passes env options jobs n).world.log := by
  refine ⟨fun hdrained ownerType ownerId hstays hanswers => ?_, justified_passes n⟩
  have hin := checked_of_passes hdrained hstays hanswers
  exact ⟨hin, fun horderly hfirst =>
    List.count_eq_one_of_mem (nodup_checked_passes horderly hfirst).1 hin⟩

/-! ## Examples of chains -/

/-- A calendar in which nothing is a cron expression. -/
def noCalendar : Calendar where
  isValidZone _ := false
  parseError _ _ := some "none"
  next _ _ _ := .error "none"
  localTime _ instant := ⟨1970, 1, instant, 1, 0⟩

/-- Nobody else changes the table, and all owners are alive. -/
def quietSurroundings : Surroundings String String where
  calendar := noCalendar
  others _ jobs := jobs
  now tick := 1000000 + tick
  aborted _ := false
  claimed _ _ := true
  findExisting _ _ _ := some fun _ => true

def pageOfOne : ReconciliationOptions where
  settleSeconds := 300
  quarantineGraceSeconds := 600
  batchSize := 1
  maxPagesPerPass := 10
  defaultTimezone := "UTC"
  settleSeconds_pos := by decide
  quarantineGraceSeconds_pos := by decide
  batchSize_pos := by decide
  maxPagesPerPass_pos := by decide

/-- A job of `wf-1` that fires every minute, in quarantine or not. -/
def minutely (orphanedAt : Option ℤ) : OwnedJob String String where
  id := 1
  taskType := "workflow"
  payload := .null
  kind := .interval
  cronExpression := none
  timezone := none
  intervalSeconds := some 60
  fireAt := none
  recurrenceUnit := none
  recurrenceSize := none
  enabled := true
  nextRunAt := none
  lastFiredAt := none
  maxAttempts := 1
  misfirePolicy := .coalesce
  misfireGraceSeconds := 0
  ownerKey := "workflow:wf-1"
  ownerType := "workflow"
  ownerId := "wf-1"
  createdAt := 0
  orphanedAt := orphanedAt
  pending := 0

theorem quietSurroundings_answers (ownerType : String) : Answers quietSurroundings ownerType :=
  fun _ => ⟨rfl, fun _ => nofun⟩

theorem passes_visit_owners_once :
    (passes quietSurroundings pageOfOne [minutely none] 1).world.checked.count
      ("workflow", "wf-1") = 1 :=
  ((passes_visit_owners quietSurroundings pageOfOne [minutely none] 1).1 (by decide) _ _ (by decide)
    (quietSurroundings_answers _)).2 (by decide) (by decide)

/-- A page with as many quarantined jobs as fit on it is read again by the next pass. -/
theorem not_visited_once :
    (passes quietSurroundings pageOfOne [minutely (some 5)] 1).drained = false ∧
      (passes quietSurroundings pageOfOne [minutely (some 5)] 2).drained = true ∧
      Stays (passes quietSurroundings pageOfOne [minutely (some 5)] 2).world "workflow" "wf-1" ∧
      Answers quietSurroundings "workflow" ∧
      (passes quietSurroundings pageOfOne [minutely (some 5)] 2).world.checked.count
        ("workflow", "wf-1") ≠ 1 := by
  exact ⟨by decide, by decide, by decide, quietSurroundings_answers _, by decide⟩

end N8n.Scheduler.Reconciliation
