import N8n.Scheduler.Passes

/-!
# Draining a backlog

A job whose oldest instant is past its grace has missed a backlog, and a coalescing policy records
one run for all of it. The cap may cut the backlog into several passes. A pass that sees nothing but
missed instants, and more to come, leaves the run to a later one.

## Main definitions

* `Behind`: the job still has an instant that is due
* `Coalesces`: the pass takes no branch that drops the run or doubles it
* `CaughtUp`: exactly one instant is recorded for the backlog, and all instants after it are

## Main results

* `caughtUp_of_drain`: passes that coalesce record exactly one instant for the backlog they drain
* `recorded_of_onTime`: on time every instant is recorded
* `not_caughtUp`: no run where the cap ends at the present, two where the rest is within the grace
-/

namespace N8n.Scheduler

open BoundedWalk (nth walk Walked Segment)

/-! ## The drain -/

/-- A job still has an instant that is due. -/
def Behind (s : Materialized) : Prop :=
  ∃ job ∈ s.jobs, ∃ first, job.nextRunAt = some first ∧ first ≤ s.clock

/-- The cap ends the walk at the last instant up to now, and the window reaches the next one. -/
def CutAtNow (advance : Occurrences) (first : ℤ) (pass : Pass) : Prop :=
  ∃ k lastDue next, pass.options.maxPerJob = k + 1 ∧ nth advance first k = some lastDue ∧
    nth advance first (k + 1) = some next ∧ lastDue ≤ pass.now ∧ pass.now < next ∧
    next ≤ pass.options.windowEnd pass.now

/-- The last instant that is past its grace. -/
def ScheduledJob.graceDeadline (job : ScheduledJob) (now : ℤ) : ℤ :=
  now - toMilliseconds job.misfireGraceSeconds

/-- The pass can plan the job if it claims it. If the oldest instant is past its grace, the cap does
not end at the present, and otherwise there is no second instant that is due. -/
def Coalesces (advance : Occurrences) (s : Materialized) (pass : Pass) : Prop :=
  ∀ job ∈ pass.claimed s.jobs, ∀ first, job.nextRunAt = some first →
    Plannable advance job first pass ∧
    (first ≤ job.graceDeadline pass.now → ¬ CutAtNow advance first pass) ∧
    (job.graceDeadline pass.now < first → pass.options.maxPerJob = 0 ∨
      ∀ second, nth advance first 1 = some second → pass.now < second)

/-- The oldest instant is within its grace. -/
def OnTime (s : Materialized) (pass : Pass) : Prop :=
  ∀ job ∈ s.jobs, ∀ first, job.nextRunAt = some first → job.graceDeadline pass.now < first

/-- One instant, the newest, was recorded for all that were due, and every instant after those. The
job goes on after the last of them. -/
def CaughtUp (advance : Occurrences) (first : ℤ) (jobId : ℕ) (s t : Materialized) : Prop :=
  ∃ missed newest ahead,
    t.consumed jobId = s.consumed jobId ++ (missed ++ newest :: ahead) ∧
    t.recorded jobId = s.recorded jobId ++ newest :: ahead ∧
    (∀ c ∈ missed, c ≤ t.clock) ∧ newest ≤ t.clock ∧ (∀ c ∈ ahead, t.clock < c) ∧
    ∃ job ∈ t.jobs, job.id = jobId ∧ Segment advance first (missed ++ newest :: ahead) job.nextRunAt

/-! ## What a coalescing policy records -/

section Policy

variable {job : ScheduledJob} {due : List ℤ} {now first : ℤ} {truncated : Bool}

theorem applyMisfirePolicy_onTime (h : due.Pairwise (· < ·))
    (hin : ∀ first, due.head? = some first → job.graceDeadline now < first) :
    applyMisfirePolicy due now job truncated = .ok (due, none) := by
  unfold applyMisfirePolicy
  dsimp only
  split
  · rfl
  · rename_i oldest later hbehind
    cases due with
    | nil => cases hbehind
    | cons c rest =>
      have hhead : ((c :: rest).filter (· ≤ now)).head? = _ := head?_filter_le h rfl
      rw [hbehind] at hhead
      split_ifs at hhead
      · cases hhead
        exact if_pos (hin oldest rfl)
      · cases hhead

/-- Past its grace the whole backlog is left to a later pass, or coalesced into its newest
instant. -/
theorem applyMisfirePolicy_late
    (hpolicy : job.misfirePolicy = .coalesce ∨ job.misfirePolicy = .coalesceOwner)
    (h : due.Pairwise (· < ·)) (hfirst : due.head? = some first)
    (hlate : first ≤ job.graceDeadline now) :
    ∃ missed newest, due.filter (· ≤ now) = missed ++ [newest] ∧
      applyMisfirePolicy due now job truncated = .ok
        (if truncated = true ∧ due.filter (now < ·) = [] then ([], none)
          else (newest :: due.filter (now < ·), some newest)) := by
  have hgrace := toMilliseconds_nonneg job.misfireGraceSeconds
  have hdue : first ≤ now := by
    unfold ScheduledJob.graceDeadline at hlate
    omega
  have hhead : (due.filter (· ≤ now)).head? = _ := head?_filter_le h hfirst
  rw [if_pos hdue] at hhead
  cases hbehind : due.filter (· ≤ now) with
  | nil => simp [hbehind] at hhead
  | cons oldest later =>
    rw [hbehind] at hhead
    obtain rfl := Option.some.inj hhead
    refine ⟨_, _, (List.dropLast_append_getLast (List.cons_ne_nil oldest later)).symm, ?_⟩
    have hahead := (@filter_append_drop due now h).1
    unfold applyMisfirePolicy
    dsimp only
    rw [hahead]
    split
    · rename_i hnone
      rw [hbehind] at hnone
      cases hnone
    · rename_i oldest' later' hcons
      rw [hbehind] at hcons
      cases hcons
      rw [← ScheduledJob.graceDeadline, if_neg (not_lt.mpr hlate)]
      rcases hpolicy with hp | hp
      · rw [hp]
        dsimp only
        split_ifs <;> rfl
      · rw [hp]
        dsimp only
        split_ifs <;> rfl

end Policy

/-! ## One pass over a backlog -/

section Pass

variable {calendar : Calendar} {advance : Occurrences} {first : ℤ} {job : ScheduledJob}
  {schedule : Schedule} {pass : Pass} {due : List ℤ} {fire : Option ℤ} {catchUpAt : Option ℤ}
  {occurrences : List ℤ}

/-- The second instant that a walk takes, or stops at, is the second occurrence. -/
theorem second_of_walked {rest : List ℤ} {limit : ℕ} {bound second : ℤ}
    (h : Walked advance bound limit first (first :: rest) fire)
    (hsecond : rest.head? = some second ∨ rest = [] ∧ fire = some second) :
    nth advance first 1 = some second := by
  cases rest with
  | nil =>
    rcases hsecond with hhead | ⟨-, rfl⟩
    · cases hhead
    · exact h.segment.map_some.2
  | cons c rest =>
    rcases hsecond with hhead | ⟨hnil, -⟩
    · rw [← h.segment.getElem?_eq (by simp)]
      exact hhead
    · cases hnil

/-- A walk that is cut while nothing is ahead, and that leaves nothing due, is cut at the present. -/
theorem cutAtNow_of_walked (h : Walked advance (pass.options.windowEnd pass.now)
      pass.options.maxPerJob first due fire) (hlimit : pass.options.maxPerJob ≠ 0)
    (htruncated : fire.any (· ≤ pass.options.windowEnd pass.now) = true)
    (hall : ∀ c ∈ due, c ≤ pass.now) (hdone : ∀ next, fire = some next → pass.now < next) :
    CutAtNow advance first pass := by
  obtain ⟨next, rfl⟩ : ∃ next, fire = some next := by
    cases fire with
    | none => simp at htruncated
    | some next => exact ⟨next, rfl⟩
  have hwindow : next ≤ pass.options.windowEnd pass.now := by simpa using htruncated
  have hlength : due.length = pass.options.maxPerJob :=
    h.stop.resolve_right fun hstop => absurd (hstop next rfl) (not_lt.mpr hwindow)
  obtain ⟨k, hk⟩ := Nat.exists_eq_succ_of_ne_zero hlimit
  have hlt : k < due.length := by omega
  refine ⟨k, due[k], next, hk, ?_, ?_, hall _ (List.getElem_mem hlt), hdone next rfl, hwindow⟩
  · rw [← h.segment.getElem?_eq hlt, List.getElem?_eq_getElem hlt]
  · have hrest := h.segment.map_some.2
    rwa [hlength, hk] at hrest

/-- A pass that leaves something due records nothing. -/
theorem occurrences_eq_nil (hadv : BoundedWalk.Increasing advance)
    (hpolicy : job.misfirePolicy = .coalesce ∨ job.misfirePolicy = .coalesceOwner)
    (h : Walked advance (pass.options.windowEnd pass.now) pass.options.maxPerJob first due fire)
    (hrecorded : applyMisfirePolicy due pass.now job
      (fire.any (· ≤ pass.options.windowEnd pass.now)) = .ok (occurrences, catchUpAt))
    (hsecond : job.graceDeadline pass.now < first → pass.options.maxPerJob = 0 ∨
      ∀ second, nth advance first 1 = some second → pass.now < second)
    {next : ℤ} (hfire : fire = some next) (hnext : next ≤ pass.now) :
    occurrences = [] ∧ ∀ c ∈ due, c ≤ pass.now := by
  subst hfire
  have hsorted := h.segment.pairwise_lt hadv
  have hbefore := h.segment.lt_rest hadv
  have hall : ∀ c ∈ due, c ≤ pass.now := fun c hc => ((hbefore c hc).le).trans hnext
  refine ⟨?_, hall⟩
  cases due with
  | nil =>
    rw [applyMisfirePolicy_onTime hsorted (fun _ hhead => by cases hhead)] at hrecorded
    exact (Prod.mk.inj (Except.ok.inj hrecorded)).1.symm
  | cons c rest =>
    obtain rfl := h.segment.head_eq
    rcases le_or_gt c (job.graceDeadline pass.now) with hlate | hin
    · obtain ⟨missed, newest, -, heq⟩ := @applyMisfirePolicy_late job _ pass.now c
        ((some next).any (· ≤ pass.options.windowEnd pass.now)) hpolicy hsorted rfl hlate
      have hahead : (c :: rest).filter (pass.now < ·) = [] := by
        rw [List.filter_eq_nil_iff]
        intro c' hc'
        simpa using hall c' hc'
      have hwindow : (some next).any (· ≤ pass.options.windowEnd pass.now) = true := by
        have := @le_windowEnd pass.now pass.options
        simp only [Option.any_some, decide_eq_true_eq]
        omega
      rw [if_pos ⟨hwindow, hahead⟩, hrecorded] at heq
      exact (Prod.mk.inj (Except.ok.inj heq)).1
    · -- within its grace there is no second instant that is due
      have hlimit : pass.options.maxPerJob ≠ 0 := by
        have := h.length_le
        simp only [List.length_cons] at this
        omega
      have hnone := (hsecond hin).resolve_left hlimit
      cases rest with
      | nil => exact absurd (hnone next (second_of_walked h (.inr ⟨rfl, rfl⟩))) (not_lt.mpr hnext)
      | cons second rest =>
        have := hnone second (second_of_walked h (.inl rfl))
        exact absurd this (not_lt.mpr (hall second (by simp)))

/-- A pass that leaves nothing due records one of the instants that were due, and all after them. -/
theorem exists_newest (hadv : BoundedWalk.Increasing advance)
    (hpolicy : job.misfirePolicy = .coalesce ∨ job.misfirePolicy = .coalesceOwner)
    (h : Walked advance (pass.options.windowEnd pass.now) pass.options.maxPerJob first due fire)
    (hrecorded : applyMisfirePolicy due pass.now job
      (fire.any (· ≤ pass.options.windowEnd pass.now)) = .ok (occurrences, catchUpAt))
    (hcut : first ≤ job.graceDeadline pass.now → ¬ CutAtNow advance first pass)
    (hsecond : job.graceDeadline pass.now < first → pass.options.maxPerJob = 0 ∨
      ∀ second, nth advance first 1 = some second → pass.now < second)
    (hdue : first ≤ pass.now) (hdone : ∀ next, fire = some next → pass.now < next) :
    ∃ missed newest ahead, due = missed ++ newest :: ahead ∧ occurrences = newest :: ahead ∧
      (∀ c ∈ missed, c ≤ pass.now) ∧ newest ≤ pass.now ∧ ∀ c ∈ ahead, pass.now < c := by
  have hsorted := h.segment.pairwise_lt hadv
  have hlimit : pass.options.maxPerJob ≠ 0 := by
    intro hzero
    -- a pass without room takes nothing, and leaves the first instant
    have hnil : due = [] := List.length_eq_zero_iff.mp (Nat.le_zero.mp (hzero ▸ h.length_le))
    subst hnil
    exact absurd (hdone first h.segment.rest_of_nil) (not_lt.mpr hdue)
  obtain ⟨rest, rfl⟩ := h.exists_cons hlimit (hdue.trans (@le_windowEnd pass.now pass.options))
  rcases le_or_gt first (job.graceDeadline pass.now) with hlate | hin
  · obtain ⟨missed, newest, hbehind, heq⟩ := @applyMisfirePolicy_late job _ pass.now first
      (fire.any (· ≤ pass.options.windowEnd pass.now)) hpolicy hsorted rfl hlate
    have happend := (@filter_append_drop (first :: rest) pass.now hsorted).2
    rw [if_neg, hrecorded] at heq
    · have hmem : ∀ c ∈ missed ++ [newest], c ≤ pass.now := by
        intro c hc
        rw [← hbehind] at hc
        simpa using (List.mem_filter.mp hc).2
      refine ⟨missed, newest, (first :: rest).filter (pass.now < ·), ?_,
        (Prod.mk.inj (Except.ok.inj heq)).1, fun c hc => hmem c (List.mem_append_left _ hc),
        hmem newest (by simp), ?_⟩
      · rw [hbehind, List.append_assoc] at happend
        exact happend.symm
      · intro c hc
        simpa using (List.mem_filter.mp hc).2
    · rintro ⟨htruncated, hahead⟩
      refine hcut hlate (cutAtNow_of_walked h hlimit htruncated ?_ hdone)
      intro c hc
      rw [hahead, List.append_nil, List.filter_eq_self] at happend
      simpa using happend c hc
  · rw [applyMisfirePolicy_onTime hsorted] at hrecorded
    · refine ⟨[], first, rest, rfl, (Prod.mk.inj (Except.ok.inj hrecorded)).1.symm, by simp, hdue, ?_⟩
      have hnone := (hsecond hin).resolve_left hlimit
      cases rest with
      | nil => simp
      | cons second rest =>
        have hlt := hnone second (second_of_walked h (.inl rfl))
        have hafter := (List.pairwise_cons.mp (List.pairwise_cons.mp hsorted).2).1
        exact List.forall_mem_cons.mpr ⟨hlt, fun c hc => hlt.trans (hafter c hc)⟩
    · intro c hc
      cases hc
      exact hin

end Pass

/-! ## All passes of a drain -/

section Drain

variable {calendar : Calendar} {defaultTimezone : String} {advance : Occurrences} {first : ℤ}
  {job : ScheduledJob} {schedule : Schedule} {s t u : Materialized} {pass : Pass} {ps : List Pass}

/-- The passes so far took missed instants, and recorded nothing. -/
structure Draining (advance : Occurrences) (first : ℤ) (job : ScheduledJob) (s u : Materialized) :
    Prop where
  recorded : u.recorded job.id = s.recorded job.id
  row : ∃ next lastFiredAt missed, u.jobs = [{ job with nextRunAt := some next, lastFiredAt }] ∧
    u.consumed job.id = s.consumed job.id ++ missed ∧ Segment advance first missed (some next) ∧
    (∀ c ∈ missed, c ≤ u.clock) ∧ (missed = [] ∨ next ≤ u.clock)

/-- **A pass of a drain** goes on without a record, or leaves nothing due and catches up. -/
theorem Draining.step (hadv : BoundedWalk.Increasing advance)
    (hpolicy : job.misfirePolicy = .coalesce ∨ job.misfirePolicy = .coalesceOwner)
    (hschedule : resolveSchedule job defaultTimezone = .ok schedule)
    (hadvance : occurrencesFrom calendar schedule = .ok advance)
    (h : Draining advance first job s u) (hlate : first ≤ job.graceDeadline pass.now)
    (hcoalesces : Coalesces advance u pass)
    (hstep : (passes calendar defaultTimezone).step u pass t) :
    (Behind t → Draining advance first job s t) ∧
      (¬ Behind t → CaughtUp advance first job.id s t) := by
  obtain ⟨hrecorded, next, lastFiredAt, missed, hjobs, hconsumed, hsegment, hmissed, hnext⟩ := h
  obtain ⟨hclock, rfl, rfl⟩ := hstep
  set row : ScheduledJob := { job with nextRunAt := some next, lastFiredAt } with hrow
  have hmissed' : ∀ c ∈ missed, c ≤ pass.now := fun c hc => (hmissed c hc).trans hclock
  have hdue : next ≤ pass.now := by
    rcases hnext with rfl | hnext
    · obtain rfl := Option.some.inj hsegment.rest_of_nil
      have := toMilliseconds_nonneg job.misfireGraceSeconds
      unfold ScheduledJob.graceDeadline at hlate
      omega
    · exact hnext.trans hclock
  rcases @claimed_alone pass row with hclaimed | hclaimed
  · obtain ⟨hplannable, hcut, hsecond⟩ := hcoalesces row (by rw [hjobs, hclaimed]; simp) next rfl
    obtain ⟨hwalked, catchUpAt, hoccurrences⟩ := walked_of_plannable rfl
      (show resolveSchedule row pass.options.defaultTimezone = .ok schedule from hschedule)
      hadvance hadv hplannable
    obtain ⟨hjobs', hconsumed', hrecorded'⟩ := @run_of_claimed_alone calendar pass u row hjobs hclaimed
    have hconsumed' : (pass.run calendar u).consumed job.id = _ := hconsumed'
    have hrecorded' : (pass.run calendar u).recorded job.id = _ := hrecorded'
    rw [show row.id = job.id from rfl, hconsumed, List.append_assoc] at hconsumed'
    rw [show row.id = job.id from rfl, hrecorded] at hrecorded'
    have hbehind : Behind (pass.run calendar u) ↔ ∃ fire,
        (pass.planned calendar row).plan.nextRunAt = some fire ∧ fire ≤ pass.now := by
      unfold Behind
      rw [hjobs']
      simp only [List.mem_singleton, exists_eq_left]
      rfl
    constructor
    · intro hstill
      obtain ⟨fire, hfire, hle⟩ := hbehind.mp hstill
      obtain ⟨hnothing, hall⟩ := occurrences_eq_nil hadv hpolicy hwalked hoccurrences hsecond hfire hle
      refine ⟨by rw [hrecorded', hnothing, List.append_nil], fire,
        (pass.planned calendar row).plan.lastFiredAt, _, ?_, hconsumed', ?_, ?_, ?_⟩
      · rw [hjobs', ← hfire]
        rfl
      · rw [← hfire]
        exact hsegment.append hwalked.segment
      · intro c hc
        exact (List.mem_append.mp hc).elim (hmissed' c) (hall c)
      · exact .inr hle
    · intro hdone
      obtain ⟨missed', newest, ahead, htaken, hocc, hmissed₂, hnewest, hahead⟩ :=
        exists_newest hadv hpolicy hwalked hoccurrences hcut hsecond hdue fun fire hfire =>
          not_le.mp fun hle => hdone (hbehind.mpr ⟨fire, hfire, hle⟩)
      refine ⟨missed ++ missed', newest, ahead, ?_, ?_, ?_, hnewest, hahead,
        row.advance (pass.planned calendar row).plan, ?_, rfl, ?_⟩
      · rw [hconsumed', htaken, List.append_assoc]
      · rw [hrecorded', hocc]
      · intro c hc
        exact (List.mem_append.mp hc).elim (hmissed' c) (hmissed₂ c)
      · rw [hjobs']
        exact List.mem_singleton_self _
      · rw [List.append_assoc, ← htaken]
        exact hsegment.append hwalked.segment
  · obtain ⟨hjobs', hconsumed', hrecorded'⟩ :=
      @run_of_not_claimed_alone calendar pass u row hjobs hclaimed
    refine ⟨fun _ => ⟨hrecorded'.trans hrecorded, next, lastFiredAt, missed, hjobs',
      hconsumed'.trans hconsumed, hsegment, hmissed', .inr hdue⟩, fun hdone => ?_⟩
    refine absurd ⟨row, ?_, next, rfl, hdue⟩ hdone
    rw [hjobs']
    exact List.mem_singleton_self row

def Alone (job : ScheduledJob) (s : Materialized) : Prop :=
  ∃ nextRunAt lastFiredAt, s.jobs = [{ job with nextRunAt, lastFiredAt }]

theorem Alone.step (h : Alone job u) (hstep : (passes calendar defaultTimezone).step u pass t) :
    Alone job t := by
  obtain ⟨nextRunAt, lastFiredAt, hjobs⟩ := h
  obtain ⟨-, -, rfl⟩ := hstep
  rcases @claimed_alone pass { job with nextRunAt, lastFiredAt } with hclaimed | hclaimed
  · exact ⟨_, _, (@run_of_claimed_alone calendar pass u _ hjobs hclaimed).1⟩
  · exact ⟨_, _, (@run_of_not_claimed_alone calendar pass u _ hjobs hclaimed).1⟩

/-- On time, a pass records all that it consumes. -/
theorem onTime_step (hadv : BoundedWalk.Increasing advance)
    (hschedule : resolveSchedule job defaultTimezone = .ok schedule)
    (hadvance : occurrencesFrom calendar schedule = .ok advance) (halone : Alone job u)
    (htime : OnTime u pass) (hstep : (passes calendar defaultTimezone).step u pass t) :
    ∃ taken, t.consumed job.id = u.consumed job.id ++ taken ∧
      t.recorded job.id = u.recorded job.id ++ taken := by
  obtain ⟨nextRunAt, lastFiredAt, hjobs⟩ := halone
  obtain ⟨-, rfl, rfl⟩ := hstep
  set row : ScheduledJob := { job with nextRunAt, lastFiredAt } with hrow
  rcases @claimed_alone pass row with hclaimed | hclaimed
  · obtain ⟨-, hconsumed', hrecorded'⟩ := @run_of_claimed_alone calendar pass u row hjobs hclaimed
    have hmem : row ∈ pass.claimed u.jobs := by
      rw [hjobs, hclaimed]
      exact List.mem_singleton_self row
    obtain ⟨first, hfirst⟩ := (mem_claimed hmem).2
    have hresolve : resolveSchedule row pass.options.defaultTimezone = .ok schedule := hschedule
    refine ⟨_, hconsumed', hrecorded'.trans ?_⟩
    congr 1
    by_cases hplannable : Plannable advance row first pass
    · obtain ⟨hwalked, catchUpAt, hoccurrences⟩ :=
        walked_of_plannable hfirst hresolve hadvance hadv hplannable
      rw [applyMisfirePolicy_onTime (hwalked.segment.pairwise_lt hadv)] at hoccurrences
      · exact (Prod.mk.inj (Except.ok.inj hoccurrences)).1.symm
      · intro c hc
        cases hdue : consumedBy calendar row pass with
        | nil => simp [hdue] at hc
        | cons c' rest =>
          rw [hdue] at hc hwalked
          cases hc
          rw [hwalked.segment.head_eq]
          exact htime row (by rw [hjobs]; simp) first hfirst
    · obtain ⟨hnothing, hnone, -⟩ :=
        deferred_of_not_plannable hfirst hresolve hadvance hadv hplannable
      rw [hnothing, hnone]
  · obtain ⟨-, hconsumed', hrecorded'⟩ :=
      @run_of_not_claimed_alone calendar pass u row hjobs hclaimed
    exact ⟨[], hconsumed'.trans (List.append_nil _).symm,
      hrecorded'.trans (List.append_nil _).symm⟩

/-- **On time every instant is recorded.** -/
theorem recorded_of_onTime (hadv : BoundedWalk.Increasing advance)
    (hschedule : resolveSchedule job defaultTimezone = .ok schedule)
    (hadvance : occurrencesFrom calendar schedule = .ok advance) (halone : Alone job s)
    (hrun : ((passes calendar defaultTimezone).restrict fun u pass _ => OnTime u pass).Run s ps t) :
    ∃ taken, t.consumed job.id = s.consumed job.id ++ taken ∧
      t.recorded job.id = s.recorded job.id ++ taken := by
  suffices h : Alone job t ∧ ∃ taken, t.consumed job.id = s.consumed job.id ++ taken ∧
      t.recorded job.id = s.recorded job.id ++ taken from h.2
  induction hrun with
  | nil => exact ⟨halone, [], (List.append_nil _).symm, (List.append_nil _).symm⟩
  | snoc _ hstep ih =>
    obtain ⟨hu, taken, hconsumed, hrecorded⟩ := ih
    obtain ⟨taken', hconsumed', hrecorded'⟩ :=
      onTime_step hadv hschedule hadvance hu hstep.2 hstep.1
    refine ⟨hu.step hstep.1, taken ++ taken', ?_, ?_⟩
    · rw [hconsumed', hconsumed, List.append_assoc]
    · rw [hrecorded', hrecorded, List.append_assoc]

theorem late_last (hclock : ps ≠ [] → first ≤ job.graceDeadline u.clock)
    (hlate : ∀ first', (ps ++ [pass]).head? = some first' → first ≤ job.graceDeadline first'.now)
    (hle : u.clock ≤ pass.now) : first ≤ job.graceDeadline pass.now := by
  by_cases hnil : ps = []
  · exact hlate pass (by rw [hnil]; rfl)
  · have := hclock hnil
    unfold ScheduledJob.graceDeadline at this ⊢
    omega

/-- The passes of a drain up to the last one. -/
theorem draining_of_run (hadv : BoundedWalk.Increasing advance)
    (hpolicy : job.misfirePolicy = .coalesce ∨ job.misfirePolicy = .coalesceOwner)
    (hschedule : resolveSchedule job defaultTimezone = .ok schedule)
    (hadvance : occurrencesFrom calendar schedule = .ok advance)
    (hstart : Draining advance first job s s)
    (hlate : ∀ pass, ps.head? = some pass → first ≤ job.graceDeadline pass.now)
    (hrun : ((passes calendar defaultTimezone).restrict fun u pass v =>
      Coalesces advance u pass ∧ Behind v).Run s ps u) :
    Draining advance first job s u ∧ (ps ≠ [] → first ≤ job.graceDeadline u.clock) := by
  induction hrun with
  | nil => exact ⟨hstart, fun h => absurd rfl h⟩
  | @snoc es u v pass _ hstep ih =>
    obtain ⟨hu, hclock⟩ := ih fun pass' hhead => hlate pass' (by
      rw [List.head?_append, hhead]
      rfl)
    have hpass := late_last hclock hlate hstep.1.1
    refine ⟨(hu.step hadv hpolicy hschedule hadvance hpass hstep.2.1 hstep.1).1 hstep.2.2, fun _ => ?_⟩
    obtain ⟨-, -, rfl⟩ := hstep.1
    exact hpass

/-- **One run for a backlog**: the passes that drain it record its newest instant and nothing else of
it, and every later instant as long as they are on time. -/
theorem caughtUp_of_drain {last : Pass} (hcal : calendar.Increasing)
    (hpolicy : job.misfirePolicy = .coalesce ∨ job.misfirePolicy = .coalesceOwner)
    (hschedule : resolveSchedule job defaultTimezone = .ok schedule)
    (hadvance : occurrencesFrom calendar schedule = .ok advance) (hjob : s.jobs = [job])
    (hfirst : job.nextRunAt = some first)
    (hlate : ∀ pass, (ps ++ [last]).head? = some pass → first ≤ job.graceDeadline pass.now)
    (hdrain : ((passes calendar defaultTimezone).restrict fun u pass v =>
      Coalesces advance u pass ∧ Behind v).Run s ps u)
    (hlast : (passes calendar defaultTimezone).step u last t) (hcoalesces : Coalesces advance u last)
    (hdone : ¬ Behind t) :
    CaughtUp advance first job.id s t ∧
      ∀ later v, ((passes calendar defaultTimezone).restrict fun u pass _ => OnTime u pass).Run
          t later v →
        ∃ taken, v.consumed job.id = t.consumed job.id ++ taken ∧
          v.recorded job.id = t.recorded job.id ++ taken := by
  have hadv := occurrencesFrom_increasing hcal hadvance
  have hstart : Draining advance first job s s := by
    refine ⟨rfl, first, job.lastFiredAt, [], ?_, (List.append_nil _).symm, .nil first, by simp,
      .inl rfl⟩
    rw [← hfirst]
    exact hjob
  obtain ⟨hu, hclock⟩ := draining_of_run hadv hpolicy hschedule hadvance hstart
    (fun pass hhead => hlate pass (by rw [List.head?_append, hhead]; rfl)) hdrain
  have hpass := late_last hclock hlate hlast.1
  refine ⟨(hu.step hadv hpolicy hschedule hadvance hpass hcoalesces hlast).2 hdone, ?_⟩
  intro later v hrun
  obtain ⟨next, lastFiredAt, missed, hjobs, -⟩ := hu.row
  have halone : Alone job u := ⟨_, _, hjobs⟩
  exact recorded_of_onTime hadv hschedule hadvance (halone.step hlast) hrun

end Drain

/-! ## A job that is due every ten seconds -/

section Examples

def polling : ScheduledJob := everyTenSeconds .coalesce 20

/-- Where the job stands after some passes. -/
def pollingFrom (nextRunAt lastFiredAt : Option ℤ) : ScheduledJob :=
  { polling with nextRunAt, lastFiredAt }

theorem claimed_pollingFrom {seconds next : ℤ} {last : Option ℤ} {windowSeconds maxPerJob : ℕ}
    (h : next ≤ seconds * 1000) :
    (passAt seconds windowSeconds maxPerJob).claimed [pollingFrom (some next) last] =
      [pollingFrom (some next) last] := by
  unfold Pass.claimed
  rw [claimDue_singleton, if_pos]
  refine ⟨⟨rfl, ?_⟩, by simp [passAt]⟩
  simpa [pollingFrom, passAt, toMilliseconds] using h

/-- A pass over the job that plans it. -/
theorem run_pollingFrom {s : Materialized} {seconds next : ℤ} {last : Option ℤ}
    {windowSeconds maxPerJob : ℕ} {plan : OccurrencePlan}
    (hjobs : s.jobs = [pollingFrom (some next) last]) (hdue : next ≤ seconds * 1000)
    (hplan : ((passAt seconds windowSeconds maxPerJob).planned everyMinute
      (pollingFrom (some next) last)).plan = plan) :
    ((passAt seconds windowSeconds maxPerJob).run everyMinute s).jobs =
        [pollingFrom plan.nextRunAt plan.lastFiredAt] ∧
      ((passAt seconds windowSeconds maxPerJob).run everyMinute s).recorded 1 =
        s.recorded 1 ++ plan.occurrences := by
  subst hplan
  obtain ⟨hjobs', -, hrecorded⟩ := @run_of_claimed_alone everyMinute
    (passAt seconds windowSeconds maxPerJob) s _ hjobs (claimed_pollingFrom hdue)
  exact ⟨hjobs', hrecorded⟩

theorem behind_iff_pollingFrom {s : Materialized} {next : ℤ} {last : Option ℤ}
    (hjobs : s.jobs = [pollingFrom (some next) last]) : Behind s ↔ next ≤ s.clock := by
  unfold Behind
  rw [hjobs]
  simp [pollingFrom]

/-- The rest of a job that is due every ten seconds can always be planned. -/
theorem plannable_pollingFrom {next : ℤ} {last : Option ℤ} {pass : Pass} :
    Plannable (intervalOccurrences 10) (pollingFrom (some next) last) next pass :=
  ⟨fun _ _ _ _ _ => ⟨_, rfl⟩, fun _ hname => by cases hname⟩

/-- The cap cuts the backlog into two passes, both of which are past the grace. -/
theorem caughtUp_of_drain_twoPasses :
    CaughtUp (intervalOccurrences 10) 0 1 (stored polling)
      ((passAt 60 0 4).run everyMinute ((passAt 60 0 4).run everyMinute (stored polling))) := by
  obtain ⟨hjobs, -⟩ := @run_pollingFrom (stored polling) 60 0 none 0 4
    ⟨[], 4, none, none, some 40000, some 30000⟩ rfl (by decide) (by decide)
  obtain ⟨hjobs', -⟩ := @run_pollingFrom _ 60 40000 (some 30000) 0 4
    ⟨[60000], 2, some 60000, some 60000, some 70000, some 60000⟩ hjobs (by decide) (by decide)
  have hcoalesces : ∀ {s : Materialized} {next : ℤ} {last : Option ℤ},
      s.jobs = [pollingFrom (some next) last] → next ≤ 40000 →
      ¬ CutAtNow (intervalOccurrences 10) next (passAt 60 0 4) →
      Coalesces (intervalOccurrences 10) s (passAt 60 0 4) := by
    intro s next last hjobs hlate hcut job hjob first hfirst
    obtain rfl := List.mem_singleton.mp (hjobs ▸ (mem_claimed hjob).1)
    obtain rfl : next = first := Option.some.inj hfirst
    refine ⟨plannable_pollingFrom, fun _ => hcut, fun hin => ?_⟩
    rw [show (pollingFrom (some next) last).graceDeadline (passAt 60 0 4).now = 40000 by
      simp [ScheduledJob.graceDeadline, pollingFrom, polling, everyTenSeconds, passAt,
        toMilliseconds]] at hin
    omega
  have hnocut : ∀ next, ¬ CutAtNow (intervalOccurrences 10) next (passAt 60 0 4) := by
    rintro next ⟨k, lastDue, after, -, -, -, -, hafter, hwindow⟩
    exact absurd hwindow (not_le.mpr hafter)
  have hstep : (passes everyMinute "UTC").step (stored polling) (passAt 60 0 4)
      ((passAt 60 0 4).run everyMinute (stored polling)) := ⟨by decide, rfl, rfl⟩
  have hbehind : Behind ((passAt 60 0 4).run everyMinute (stored polling)) :=
    (behind_iff_pollingFrom hjobs).mpr (by decide)
  have hlast : (passes everyMinute "UTC").step ((passAt 60 0 4).run everyMinute (stored polling))
      (passAt 60 0 4) ((passAt 60 0 4).run everyMinute ((passAt 60 0 4).run everyMinute
        (stored polling))) := ⟨by decide, rfl, rfl⟩
  refine (@caughtUp_of_drain everyMinute "UTC" (intervalOccurrences 10) 0 polling (.interval 10)
    (stored polling) _ _ [passAt 60 0 4] (passAt 60 0 4) everyMinute_increasing (.inl rfl) rfl rfl
    rfl rfl ?_ (.snoc .nil ⟨hstep, hcoalesces rfl (by decide) (hnocut 0), hbehind⟩) hlast
    (hcoalesces hjobs le_rfl (hnocut 40000)) ?_).1
  · intro pass hpass
    cases hpass
    decide
  · rw [behind_iff_pollingFrom hjobs']
    decide

/-- Where the cap ends at the present nothing is recorded, and where the rest of the backlog is within
the grace all of the rest is. -/
theorem not_caughtUp :
    0 ≤ polling.graceDeadline 40000 ∧
    (∃ t, (passes everyMinute "UTC").Run (stored polling) [passAt 40 60 5] t ∧ ¬ Behind t ∧
      t.recorded 1 = [] ∧ ¬ CaughtUp (intervalOccurrences 10) 0 1 (stored polling) t) ∧
    ∃ t, (passes everyMinute "UTC").Run (stored polling) [passAt 60 0 5, passAt 60 0 5] t ∧
      ¬ Behind t ∧ t.recorded 1 = [50000, 60000] ∧
      ¬ CaughtUp (intervalOccurrences 10) 0 1 (stored polling) t := by
  refine ⟨by decide, ?_, ?_⟩
  · obtain ⟨hjobs, hrecorded⟩ := @run_pollingFrom (stored polling) 40 0 none 60 5
      ⟨[], 5, none, none, some 50000, some 40000⟩ rfl (by decide) (by decide)
    refine ⟨_, Transition.System.Run.nil.snoc ⟨by decide, rfl, rfl⟩, ?_, hrecorded, ?_⟩
    · rw [behind_iff_pollingFrom hjobs]
      decide
    · rintro ⟨missed, newest, ahead, -, hone, -⟩
      rw [hrecorded] at hone
      cases hone
  · obtain ⟨hjobs, hrecorded⟩ := @run_pollingFrom (stored polling) 60 0 none 0 5
      ⟨[], 5, none, none, some 50000, some 40000⟩ rfl (by decide) (by decide)
    obtain ⟨hjobs', hrecorded'⟩ := @run_pollingFrom _ 60 50000 (some 40000) 0 5
      ⟨[50000, 60000], 0, none, none, some 70000, some 60000⟩ hjobs (by decide) (by decide)
    rw [hrecorded] at hrecorded'
    have hrun : (passes everyMinute "UTC").Run (stored polling) [passAt 60 0 5, passAt 60 0 5] _ :=
      .cons ⟨by decide, rfl, rfl⟩ (.cons ⟨by decide, rfl, rfl⟩ .nil)
    refine ⟨_, hrun, ?_, hrecorded', ?_⟩
    · rw [behind_iff_pollingFrom hjobs']
      decide
    · rintro ⟨missed, newest, ahead, -, htwo, -, -, hahead, -⟩
      rw [hrecorded'] at htwo
      obtain ⟨rfl, rfl⟩ : newest = 50000 ∧ ahead = [60000] := by simpa [stored, eq_comm] using htwo
      -- both of them were due
      have hlate := hahead 60000 (by simp)
      exact absurd hlate (by decide)

end Examples

end N8n.Scheduler
