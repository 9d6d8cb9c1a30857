import Mathlib.Data.List.Nodup
import N8n.Foundations.Transition
import N8n.Scheduler.Materializer

/-!
# Passes of the materializer

A job is materialized in many passes, each of which goes on where the one before stopped. Together
the passes consume the occurrences of its schedule one after the other, as if they were a single
walk, as long as the job is never deferred: a deferred job goes on at the time of its retry, which
is no occurrence of its schedule.

## Main definitions

* `Pass`, `Pass.run`: a pass over the table of jobs
* `passes`: all sequences of passes, with what they consumed and recorded
* `Plannable`: the pass can plan the job
* `InOrder`: what was consumed so far is what the schedule starts with

## Main results

* `exists_plan_iff`: a pass plans a job exactly when it is plannable
* `inOrder_iff`: the passes of a run consume the occurrences in order exactly when they can plan the
  job
* `not_inOrder`: a job with an unknown misfire policy
-/

namespace N8n.Scheduler

open BoundedWalk (nth walk Walked Segment)

/-! ## A pass over the table -/

/-- A pass: the time in the database, and the options of the instance. -/
structure Pass where
  now : ℤ
  options : MaterializerOptions

/-- The jobs, the time of the last pass, and what was consumed and recorded of each job. -/
structure Materialized where
  jobs : List ScheduledJob
  clock : ℤ
  consumed : ℕ → List ℤ
  recorded : ℕ → List ℤ

section Run

variable (calendar : Calendar)

/-- The instants of a job that a pass plans: those it records, and those it skips by policy. -/
def consumedBy (job : ScheduledJob) (pass : Pass) : List ℤ :=
  match planOccurrences calendar job pass.now pass.options, job.nextRunAt,
      resolveSchedule job pass.options.defaultTimezone with
  | .ok _, some first, .ok schedule =>
    match dueOccurrences calendar schedule first pass.now pass.options with
    | .ok (due, _) => due
    | .error _ => []
  | _, _, _ => []

namespace Pass

variable (pass : Pass) (jobs : List ScheduledJob)

def claimed : List ScheduledJob :=
  claimDue jobs pass.now pass.options.batchSize (toMilliseconds pass.options.lookaheadSeconds)

def materialization : Materialization :=
  materialize calendar pass.options ⟨pass.now, pass.claimed jobs⟩

def consumed (jobId : ℕ) : List ℤ :=
  match (pass.claimed jobs).find? fun job => job.id = jobId with
  | some job => consumedBy calendar job pass
  | none => []

def recorded (jobId : ℕ) : List ℤ :=
  ((pass.materialization calendar jobs).rows.filter fun row => row.jobId = jobId).map
    NewOccurrence.scheduledFor

def run (s : Materialized) : Materialized where
  jobs := advanceMany s.jobs (pass.materialization calendar s.jobs).planned
  clock := pass.now
  consumed jobId := s.consumed jobId ++ pass.consumed calendar s.jobs jobId
  recorded jobId := s.recorded jobId ++ pass.recorded calendar s.jobs jobId

end Pass

/-- All sequences of passes whose clock does not go back. -/
def passes (defaultTimezone : String) : Transition.System Materialized Pass where
  init s := (s.jobs.map ScheduledJob.id).Nodup
  step s pass t := s.clock ≤ pass.now ∧ pass.options.defaultTimezone = defaultTimezone ∧
    t = pass.run calendar s

end Run

/-! ## The row of a job after a pass -/

section Rows

variable {calendar : Calendar} {pass : Pass} {s : Materialized} {job job' : ScheduledJob}

/-- What a pass makes of a job before the groups of its owner. -/
def Pass.planned (calendar : Calendar) (pass : Pass) (job : ScheduledJob) : PlannedJob :=
  (planOrDeferJob calendar job pass.now pass.options).1

theorem job_planned : (pass.planned calendar job).job = job := by
  unfold Pass.planned planOrDeferJob
  split <;> rfl

theorem mem_claimed (h : job ∈ pass.claimed s.jobs) :
    job ∈ s.jobs ∧ ∃ first, job.nextRunAt = some first := by
  have hin := List.mem_mergeSort.mp (List.mem_of_mem_take h)
  obtain ⟨hjobs, hdue⟩ := List.mem_filter.mp hin
  refine ⟨hjobs, ?_⟩
  cases hfirst : job.nextRunAt with
  | none => simp [hfirst] at hdue
  | some first => exact ⟨first, rfl⟩

theorem eq_of_id (hids : (s.jobs.map ScheduledJob.id).Nodup) (h : job ∈ s.jobs)
    (h' : job' ∈ s.jobs) (hid : job.id = job'.id) : job = job' :=
  List.inj_on_of_nodup_map hids h h' hid

/-- The groups of the owner leave where a job goes on. -/
theorem mem_planned {entry : PlannedJob}
    (h : entry ∈ (pass.materialization calendar s.jobs).planned) :
    ∃ job ∈ pass.claimed s.jobs, entry.job = job ∧
      entry.plan.nextRunAt = (pass.planned calendar job).plan.nextRunAt ∧
      entry.plan.lastFiredAt = (pass.planned calendar job).plan.lastFiredAt := by
  unfold Pass.materialization materialize applyCoalesceOwnerPolicy at h
  simp only [List.map_map, List.mem_map, Function.comp_apply] at h
  obtain ⟨job, hjob, rfl⟩ := h
  refine ⟨job, hjob, ?_⟩
  split_ifs
  · exact ⟨job_planned, rfl, rfl⟩
  · exact ⟨job_planned, rfl, rfl⟩

theorem exists_planned (h : job ∈ pass.claimed s.jobs) :
    ∃ entry ∈ (pass.materialization calendar s.jobs).planned, entry.job = job := by
  unfold Pass.materialization materialize applyCoalesceOwnerPolicy
  simp only [List.map_map, List.mem_map, Function.comp_apply, exists_exists_and_eq_and]
  refine ⟨job, h, ?_⟩
  split_ifs
  · exact job_planned
  · exact job_planned

/-- The row of a job that the pass claims is advanced. -/
theorem mem_run_of_claimed (hids : (s.jobs.map ScheduledJob.id).Nodup)
    (h : job ∈ pass.claimed s.jobs) :
    job.advance (pass.planned calendar job).plan ∈ (pass.run calendar s).jobs := by
  obtain ⟨entry, hentry, hjob⟩ := @exists_planned calendar pass s job h
  have hsome : ((pass.materialization calendar s.jobs).planned.find?
      fun entry => entry.job.id = job.id).isSome = true :=
    List.find?_isSome.mpr ⟨entry, hentry, by simp [hjob]⟩
  obtain ⟨found, hfound⟩ := Option.isSome_iff_exists.mp hsome
  obtain ⟨job', hjob', hof, hnext, hlast⟩ := mem_planned (List.mem_of_find?_eq_some hfound)
  obtain rfl : job' = job := by
    refine eq_of_id hids (mem_claimed hjob').1 (mem_claimed h).1 ?_
    rw [← hof]
    simpa using List.find?_some hfound
  refine List.mem_map.mpr ⟨job', (mem_claimed h).1, ?_⟩
  simp only [hfound, ScheduledJob.advance, hnext, hlast]

/-- Any other row stays as it is. -/
theorem mem_run_of_not_claimed (hids : (s.jobs.map ScheduledJob.id).Nodup) (hjob : job ∈ s.jobs)
    (h : job ∉ pass.claimed s.jobs) : job ∈ (pass.run calendar s).jobs := by
  have hnone : (pass.materialization calendar s.jobs).planned.find?
      (fun entry => entry.job.id = job.id) = none := by
    rw [List.find?_eq_none]
    intro entry hentry hid
    obtain ⟨job', hjob', hof, -⟩ := mem_planned hentry
    obtain rfl : job' = job := by
      refine eq_of_id hids (mem_claimed hjob').1 hjob ?_
      rw [← hof]
      simpa using hid
    exact h hjob'
  refine List.mem_map.mpr ⟨job, hjob, ?_⟩
  rw [hnone]

theorem ids_run : (pass.run calendar s).jobs.map ScheduledJob.id = s.jobs.map ScheduledJob.id := by
  unfold Pass.run advanceMany
  rw [List.map_map]
  apply List.map_congr_left
  intro job _
  rw [Function.comp_apply]
  split <;> rfl

theorem consumed_of_claimed (hids : (s.jobs.map ScheduledJob.id).Nodup)
    (h : job ∈ pass.claimed s.jobs) :
    pass.consumed calendar s.jobs job.id = consumedBy calendar job pass := by
  have hsome : ((pass.claimed s.jobs).find? fun job' => job'.id = job.id).isSome = true :=
    List.find?_isSome.mpr ⟨job, h, by simp⟩
  obtain ⟨found, hfound⟩ := Option.isSome_iff_exists.mp hsome
  obtain rfl : found = job := by
    refine eq_of_id hids (mem_claimed (List.mem_of_find?_eq_some hfound)).1 (mem_claimed h).1 ?_
    simpa using List.find?_some hfound
  unfold Pass.consumed
  rw [hfound]

theorem consumed_of_not_claimed (hids : (s.jobs.map ScheduledJob.id).Nodup) (hjob : job ∈ s.jobs)
    (h : job ∉ pass.claimed s.jobs) : pass.consumed calendar s.jobs job.id = [] := by
  have hnone : (pass.claimed s.jobs).find? (fun job' => job'.id = job.id) = none := by
    rw [List.find?_eq_none]
    intro job' hjob' hid
    obtain rfl := eq_of_id hids (mem_claimed hjob').1 hjob (by simpa using hid)
    exact h hjob'
  unfold Pass.consumed
  rw [hnone]

end Rows

/-! ## A job considered alone -/

section Alone

variable {calendar : Calendar} {pass : Pass} {s : Materialized} {job : ScheduledJob}

theorem claimDue_singleton {now : ℤ} {limit : ℕ} {lookaheadMs : ℤ} :
    claimDue [job] now limit lookaheadMs =
      if (job.enabled = true ∧ job.nextRunAt.any (· ≤ now + lookaheadMs) = true) ∧ limit ≠ 0 then [job]
      else [] := by
  unfold claimDue
  by_cases hdue : job.enabled = true ∧ job.nextRunAt.any (· ≤ now + lookaheadMs) = true
  · rw [List.filter_cons_of_pos (by simpa using hdue), List.filter_nil, List.mergeSort_singleton]
    cases limit with
    | zero => simp
    | succ limit => simp [hdue]
  · rw [List.filter_cons_of_neg (by simpa using hdue), List.filter_nil, List.mergeSort_nil,
      List.take_nil, if_neg fun h => hdue h.1]

/-- A job without siblings keeps its catch-up run. -/
theorem planned_alone (h : pass.claimed [job] = [job]) :
    (pass.materialization calendar [job]).planned = [pass.planned calendar job] := by
  have hkeep : isLoser [pass.planned calendar job] (pass.planned calendar job) = false := by
    unfold isLoser membersOfOwner
    cases howned : ownedCatchUp (pass.planned calendar job) with
    | none => rfl
    | some catchUpAt => simp [howned]
  unfold Pass.materialization materialize applyCoalesceOwnerPolicy
  rw [h]
  simp only [List.map_cons, List.map_nil]
  rw [← Pass.planned, hkeep]
  rfl

theorem scheduledFor_toNewOccurrences {entry : PlannedJob} {now : ℤ} (hjob : entry.job = job) :
    ((toNewOccurrences [entry] now).filter fun row => row.jobId = job.id).map
      NewOccurrence.scheduledFor = entry.plan.occurrences := by
  subst hjob
  unfold toNewOccurrences
  rw [List.flatMap_singleton, List.filter_map, List.map_map, List.filter_eq_self.mpr (by simp)]
  exact List.map_id _

theorem run_of_claimed_alone (hjobs : s.jobs = [job]) (h : pass.claimed [job] = [job]) :
    (pass.run calendar s).jobs = [job.advance (pass.planned calendar job).plan] ∧
      (pass.run calendar s).consumed job.id = s.consumed job.id ++ consumedBy calendar job pass ∧
      (pass.run calendar s).recorded job.id =
        s.recorded job.id ++ (pass.planned calendar job).plan.occurrences := by
  have hplanned := @planned_alone calendar pass job h
  have hjob := @job_planned calendar pass job
  refine ⟨?_, ?_, ?_⟩
  · unfold Pass.run advanceMany
    rw [hjobs, hplanned]
    simp [hjob]
  · show s.consumed job.id ++ pass.consumed calendar s.jobs job.id = _
    unfold Pass.consumed
    rw [hjobs, h]
    simp
  · show s.recorded job.id ++ pass.recorded calendar s.jobs job.id = _
    have hrows : (pass.materialization calendar [job]).rows =
        toNewOccurrences (pass.materialization calendar [job]).planned pass.now := rfl
    unfold Pass.recorded
    rw [hjobs, hrows, hplanned, scheduledFor_toNewOccurrences hjob]

theorem run_of_not_claimed_alone (hjobs : s.jobs = [job]) (h : pass.claimed [job] = []) :
    (pass.run calendar s).jobs = [job] ∧
      (pass.run calendar s).consumed job.id = s.consumed job.id ∧
      (pass.run calendar s).recorded job.id = s.recorded job.id := by
  have hplanned : (pass.materialization calendar [job]).planned = [] := by
    unfold Pass.materialization materialize
    rw [h]
    rfl
  refine ⟨?_, ?_, ?_⟩
  · unfold Pass.run advanceMany
    rw [hjobs, hplanned]
    rfl
  · show s.consumed job.id ++ pass.consumed calendar s.jobs job.id = _
    unfold Pass.consumed
    rw [hjobs, h]
    exact List.append_nil _
  · show s.recorded job.id ++ pass.recorded calendar s.jobs job.id = _
    have hrows : (pass.materialization calendar [job]).rows =
        toNewOccurrences (pass.materialization calendar [job]).planned pass.now := rfl
    unfold Pass.recorded
    rw [hjobs, hrows, hplanned]
    exact List.append_nil _

theorem claimed_alone : pass.claimed [job] = [job] ∨ pass.claimed [job] = [] := by
  unfold Pass.claimed
  rw [claimDue_singleton]
  split_ifs
  · exact .inl rfl
  · exact .inr rfl

end Alone

/-! ## Instants behind and ahead -/

section Behind

variable {due : List ℤ} {now : ℤ}

/-- Instants in order are those up to now, and then those after it. -/
theorem filter_append_drop (h : due.Pairwise (· < ·)) :
    due.drop (due.filter (· ≤ now)).length = due.filter (now < ·) ∧
      due.filter (· ≤ now) ++ due.filter (now < ·) = due := by
  induction due with
  | nil => exact ⟨rfl, rfl⟩
  | cons first rest ih =>
    obtain ⟨hfirst, hrest⟩ := List.pairwise_cons.mp h
    obtain ⟨hdrop, happend⟩ := ih hrest
    by_cases hle : first ≤ now
    · have hlt : ¬ now < first := not_lt.mpr hle
      rw [List.filter_cons_of_pos (by simpa using hle), List.filter_cons_of_neg (by simpa using hlt)]
      exact ⟨hdrop, congrArg (first :: ·) happend⟩
    · -- all that follow are after now as well
      have hall : ∀ c ∈ first :: rest, now < c := by
        intro c hc
        rcases List.mem_cons.mp hc with rfl | hc
        · exact not_le.mp hle
        · exact (not_le.mp hle).trans (hfirst c hc)
      have hnone : (first :: rest).filter (· ≤ now) = [] := by
        rw [List.filter_eq_nil_iff]
        intro c hc
        simpa using hall c hc
      have hself : (first :: rest).filter (now < ·) = first :: rest := by
        rw [List.filter_eq_self]
        intro c hc
        simpa using hall c hc
      rw [hnone, hself]
      exact ⟨rfl, rfl⟩

theorem head?_filter_le (h : due.Pairwise (· < ·)) {first : ℤ} (hfirst : due.head? = some first) :
    (due.filter (· ≤ now)).head? = if first ≤ now then some first else none := by
  cases due with
  | nil => cases hfirst
  | cons c rest =>
    obtain rfl := Option.some.inj hfirst
    split_ifs with hle
    · rw [List.filter_cons_of_pos (by simpa using hle)]
      rfl
    · have hnone : (c :: rest).filter (· ≤ now) = [] := by
        rw [List.filter_eq_nil_iff]
        intro c' hc'
        rcases List.mem_cons.mp hc' with rfl | hc'
        · simpa using hle
        · have := (List.pairwise_cons.mp h).1 c' hc'
          simp only [decide_eq_true_eq, not_le] at hle ⊢
          omega
      rw [hnone]
      rfl

end Behind

/-! ## What a pass can plan -/

/-- The pass can plan the job: each occurrence that it may take can be advanced from, and if the job
has misfired, its policy is known. -/
structure Plannable (advance : Occurrences) (job : ScheduledJob) (first : ℤ) (pass : Pass) :
    Prop where
  steps : ∀ k < pass.options.maxPerJob, ∀ fire, nth advance first k = some fire →
    fire ≤ pass.options.windowEnd pass.now → ∃ next, advance fire = .ok next
  policy : ∀ name, job.misfirePolicy = .other name →
    pass.options.maxPerJob = 0 ∨ pass.now - toMilliseconds job.misfireGraceSeconds < first

section Planning

variable {calendar : Calendar} {job : ScheduledJob} {pass : Pass} {schedule : Schedule}
  {advance : Occurrences} {first : ℤ} {due : List ℤ} {now : ℤ} {truncated : Bool}

theorem toMilliseconds_nonneg (seconds : ℕ) : 0 ≤ toMilliseconds seconds := by
  unfold toMilliseconds
  omega

theorem le_windowEnd (options : MaterializerOptions) : now ≤ options.windowEnd now := by
  have := toMilliseconds_nonneg options.windowSeconds
  unfold MaterializerOptions.windowEnd
  omega

/-- Only an unknown policy of a job that has misfired throws. -/
theorem exists_applyMisfirePolicy_iff (h : due.Pairwise (· < ·)) :
    (∃ r, applyMisfirePolicy due now job truncated = .ok r) ↔
      ∀ name, job.misfirePolicy = .other name → ∀ first, due.head? = some first →
        now - toMilliseconds job.misfireGraceSeconds < first := by
  have hgrace := toMilliseconds_nonneg job.misfireGraceSeconds
  unfold applyMisfirePolicy
  dsimp only
  split
  · rename_i hnone
    refine ⟨fun _ name _ first hfirst => ?_, fun _ => ⟨_, rfl⟩⟩
    have hhead : (due.filter (· ≤ now)).head? = _ := head?_filter_le h hfirst
    rw [hnone] at hhead
    split_ifs at hhead with hle
    · cases hhead
    · omega
  · rename_i oldest later hbehind
    have holdest : due.head? = some oldest := by
      cases due with
      | nil => cases hbehind
      | cons first rest =>
        have hhead : ((first :: rest).filter (· ≤ now)).head? = _ := head?_filter_le h rfl
        rw [hbehind] at hhead
        split_ifs at hhead
        · exact hhead.symm
        · cases hhead
    by_cases hin : now - toMilliseconds job.misfireGraceSeconds < oldest
    · rw [if_pos hin]
      refine ⟨fun _ name _ first hfirst => ?_, fun _ => ⟨_, rfl⟩⟩
      rw [holdest] at hfirst
      exact Option.some.inj hfirst ▸ hin
    · rw [if_neg hin]
      cases hpolicy : job.misfirePolicy with
      | coalesce | coalesceOwner =>
        refine ⟨fun _ name hname => (by cases hname), fun _ => ?_⟩
        dsimp only
        split_ifs
        · exact ⟨_, rfl⟩
        · exact ⟨_, rfl⟩
      | skip => exact ⟨fun _ name hname => (by cases hname), fun _ => ⟨_, rfl⟩⟩
      | other name =>
        constructor
        · rintro ⟨r, hr⟩
          cases hr
        · intro hknown
          exact absurd (hknown name rfl oldest holdest) hin

section Plan

variable (hfirst : job.nextRunAt = some first)
  (hschedule : resolveSchedule job pass.options.defaultTimezone = .ok schedule)
  (hadvance : occurrencesFrom calendar schedule = .ok advance) {plan : OccurrencePlan}

include hfirst hschedule hadvance

/-- A pass walks along the schedule and leaves the instants to the policy. -/
theorem planOccurrences_eq_ok :
    planOccurrences calendar job pass.now pass.options = .ok plan ↔
      ∃ due fire, walk advance (pass.options.windowEnd pass.now) pass.options.maxPerJob first =
          .ok (due, fire) ∧
        ∃ occurrences catchUpAt, applyMisfirePolicy due pass.now job
            (fire.any (· ≤ pass.options.windowEnd pass.now)) = .ok (occurrences, catchUpAt) ∧
          plan = ⟨occurrences, due.length - occurrences.length, catchUpAt, catchUpAt, fire,
            due.getLast?.or job.lastFiredAt⟩ := by
  unfold planOccurrences dueOccurrences
  simp only [hschedule, hfirst, hadvance, Failure.bind_eq_ok, Except.ok.injEq, exists_eq_left',
    pure, Except.pure, Prod.exists, eq_comm (a := plan)]

theorem consumedBy_of_walk {fire : Option ℤ}
    (hplan : planOccurrences calendar job pass.now pass.options = .ok plan)
    (hwalk : walk advance (pass.options.windowEnd pass.now) pass.options.maxPerJob first =
      .ok (due, fire)) : consumedBy calendar job pass = due := by
  have hdue : dueOccurrences calendar schedule first pass.now pass.options = .ok (due, fire) := by
    unfold dueOccurrences
    rw [hadvance]
    exact hwalk
  simp only [consumedBy, hplan, hfirst, hschedule, hdue]

/-- **A pass plans a job** exactly when it is plannable. -/
theorem exists_plan_iff (hadv : BoundedWalk.Increasing advance) :
    (∃ plan, planOccurrences calendar job pass.now pass.options = .ok plan) ↔
      Plannable advance job first pass := by
  simp only [planOccurrences_eq_ok hfirst hschedule hadvance]
  constructor
  · rintro ⟨_, due, fire, hwalk, occurrences, catchUpAt, hpolicy, -⟩
    have hwalked := BoundedWalk.walk_ok hwalk
    refine ⟨(BoundedWalk.exists_walk_iff hadv).mp ⟨_, hwalk⟩, fun name hname => ?_⟩
    by_contra hmisfired
    obtain ⟨hlimit, hle⟩ := not_or.mp hmisfired
    -- a job that has misfired is due, so that the policy was asked
    have hgrace := toMilliseconds_nonneg job.misfireGraceSeconds
    have hwindow := @le_windowEnd pass.now pass.options
    obtain ⟨rest, rfl⟩ := hwalked.exists_cons hlimit (by omega)
    exact hle ((exists_applyMisfirePolicy_iff (hwalked.segment.pairwise_lt hadv)).mp ⟨_, hpolicy⟩
      name hname first rfl)
  · intro h
    obtain ⟨⟨due, fire⟩, hwalk⟩ := (BoundedWalk.exists_walk_iff hadv).mpr h.steps
    have hwalked := BoundedWalk.walk_ok hwalk
    obtain ⟨⟨occurrences, catchUpAt⟩, hpolicy⟩ :=
      (@exists_applyMisfirePolicy_iff job due pass.now
        (fire.any (· ≤ pass.options.windowEnd pass.now)) (hwalked.segment.pairwise_lt hadv)).mpr (by
          intro name hname first' hhead
          cases due with
          | nil => cases hhead
          | cons c rest =>
            cases hhead
            obtain rfl := hwalked.segment.head_eq
            refine (h.policy name hname).resolve_left fun hlimit => ?_
            have := hwalked.length_le
            simp [hlimit] at this)
    exact ⟨_, due, fire, hwalk, occurrences, catchUpAt, hpolicy, rfl⟩

/-- A pass that plans a job walks on from where the job stands, and records what the policy leaves of
the instants on the way. -/
theorem walked_of_plannable (hadv : BoundedWalk.Increasing advance)
    (h : Plannable advance job first pass) :
    Walked advance (pass.options.windowEnd pass.now) pass.options.maxPerJob first
        (consumedBy calendar job pass) (pass.planned calendar job).plan.nextRunAt ∧
      ∃ catchUpAt, applyMisfirePolicy (consumedBy calendar job pass) pass.now job
        ((pass.planned calendar job).plan.nextRunAt.any (· ≤ pass.options.windowEnd pass.now)) =
          .ok ((pass.planned calendar job).plan.occurrences, catchUpAt) := by
  obtain ⟨plan, hplan⟩ := (exists_plan_iff hfirst hschedule hadvance hadv).mpr h
  obtain ⟨due, fire, hwalk, occurrences, catchUpAt, hpolicy, rfl⟩ :=
    (planOccurrences_eq_ok hfirst hschedule hadvance).mp hplan
  rw [consumedBy_of_walk hfirst hschedule hadvance hplan hwalk]
  unfold Pass.planned planOrDeferJob
  rw [hplan]
  exact ⟨BoundedWalk.walk_ok hwalk, catchUpAt, hpolicy⟩

/-- A pass that cannot plan a job consumes nothing, and the job goes on at the time of the retry. -/
theorem deferred_of_not_plannable (hadv : BoundedWalk.Increasing advance)
    (h : ¬ Plannable advance job first pass) :
    consumedBy calendar job pass = [] ∧ (pass.planned calendar job).plan.occurrences = [] ∧
      (pass.planned calendar job).plan.nextRunAt = some (pass.options.retryAt pass.now) := by
  rw [← exists_plan_iff hfirst hschedule hadvance hadv] at h
  cases hplan : planOccurrences calendar job pass.now pass.options with
  | ok plan => exact absurd ⟨plan, hplan⟩ h
  | error e =>
    unfold consumedBy Pass.planned planOrDeferJob
    rw [hplan]
    exact ⟨rfl, rfl, rfl⟩

end Plan

end Planning

/-! ## Consumed in order -/

/-- What was consumed of a job is what its schedule starts with, without a gap or a repetition, and
the job goes on with the occurrence after that. -/
structure InOrder (advance : Occurrences) (first : ℤ) (jobId : ℕ) (s : Materialized) : Prop where
  consumed : (s.consumed jobId).map some =
    (List.range (s.consumed jobId).length).map (nth advance first)
  increasing : (s.consumed jobId).Pairwise (· < ·)
  next : ∃ job ∈ s.jobs, job.id = jobId ∧
    job.nextRunAt = nth advance first (s.consumed jobId).length

/-- The pass can plan the job if it claims it, or the retry is at the very occurrence at which the
job stands. -/
def Plans (advance : Occurrences) (jobId : ℕ) (s : Materialized) (pass : Pass) : Prop :=
  ∀ job ∈ pass.claimed s.jobs, job.id = jobId → ∀ first, job.nextRunAt = some first →
    Plannable advance job first pass ∨ pass.options.retryAt pass.now = first

section InOrder

variable {calendar : Calendar} {defaultTimezone : String} {advance : Occurrences} {first : ℤ}
  {job : ScheduledJob} {schedule : Schedule} {s t : Materialized} {pass : Pass} {ps : List Pass}

/-- The row of the job, and that its passes took a segment of its schedule. -/
structure Tracked (advance : Occurrences) (first : ℤ) (job : ScheduledJob) (s : Materialized) :
    Prop where
  ids : (s.jobs.map ScheduledJob.id).Nodup
  row : ∃ nextRunAt lastFiredAt, { job with nextRunAt, lastFiredAt } ∈ s.jobs ∧
    Segment advance first (s.consumed job.id) nextRunAt

theorem Tracked.inOrder (hadv : BoundedWalk.Increasing advance) (h : Tracked advance first job s) :
    InOrder advance first job.id s := by
  obtain ⟨nextRunAt, lastFiredAt, hrow, hsegment⟩ := h.row
  obtain ⟨hconsumed, hnext⟩ := hsegment.map_some
  exact ⟨hconsumed, hsegment.pairwise_lt hadv, _, hrow, rfl, hnext.symm⟩

/-- **One pass**: it goes on with the schedule exactly when it can plan the job. -/
theorem Tracked.step (hadv : BoundedWalk.Increasing advance)
    (hschedule : resolveSchedule job defaultTimezone = .ok schedule)
    (hadvance : occurrencesFrom calendar schedule = .ok advance)
    (h : Tracked advance first job s) (hstep : (passes calendar defaultTimezone).step s pass t) :
    (Plans advance job.id s pass → Tracked advance first job t) ∧
      (InOrder advance first job.id t → Plans advance job.id s pass) := by
  obtain ⟨hids, nextRunAt, lastFiredAt, hrow, hsegment⟩ := h
  obtain ⟨-, rfl, rfl⟩ := hstep
  have hids' : ((pass.run calendar s).jobs.map ScheduledJob.id).Nodup := by
    rw [ids_run]
    exact hids
  set row : ScheduledJob := { job with nextRunAt, lastFiredAt } with hrowdef
  have hresolve : resolveSchedule row pass.options.defaultTimezone = .ok schedule := hschedule
  have hconsumed : (pass.run calendar s).consumed job.id =
      s.consumed job.id ++ pass.consumed calendar s.jobs row.id := rfl
  by_cases hclaimed : row ∈ pass.claimed s.jobs
  · obtain ⟨stand, hstand⟩ := (mem_claimed hclaimed).2
    obtain rfl : nextRunAt = some stand := hstand
    have hnew := @mem_run_of_claimed calendar pass s row hids hclaimed
    rw [consumed_of_claimed hids hclaimed] at hconsumed
    have hplans : Plans advance job.id s pass ↔
        Plannable advance row stand pass ∨ pass.options.retryAt pass.now = stand := by
      constructor
      · exact fun hplans => hplans row hclaimed rfl stand rfl
      · rintro hplans other hother hid first' hfirst'
        obtain rfl := eq_of_id hids (mem_claimed hother).1 hrow hid
        obtain rfl : stand = first' := Option.some.inj hfirst'
        exact hplans
    by_cases hplannable : Plannable advance row stand pass
    · have hwalked := (walked_of_plannable rfl hresolve hadvance hadv hplannable).1
      refine ⟨fun _ => ⟨hids', _, _, hnew, ?_⟩, fun _ => hplans.mpr (.inl hplannable)⟩
      rw [hconsumed]
      exact hsegment.append hwalked.segment
    · obtain ⟨hnothing, -, hretry⟩ := deferred_of_not_plannable rfl hresolve hadvance hadv hplannable
      rw [hnothing, List.append_nil] at hconsumed
      constructor
      · intro hp
        refine ⟨hids', _, _, hnew, ?_⟩
        rw [hconsumed, hretry, (hplans.mp hp).resolve_left hplannable]
        exact hsegment
      · intro horder
        obtain ⟨other, hother, hid, hnext⟩ := horder.next
        obtain rfl := eq_of_id hids' hother hnew hid
        -- the occurrence after what was consumed is the one at which the job stood
        rw [hconsumed, hsegment.map_some.2] at hnext
        exact hplans.mpr (.inr (Option.some.inj (hretry.symm.trans hnext)))
  · rw [consumed_of_not_claimed hids hrow hclaimed, List.append_nil] at hconsumed
    refine ⟨fun _ => ⟨hids', _, _, mem_run_of_not_claimed hids hrow hclaimed, ?_⟩, fun _ => ?_⟩
    · rw [hconsumed]
      exact hsegment
    · intro other hother hid
      obtain rfl := eq_of_id hids (mem_claimed hother).1 hrow hid
      exact absurd hother hclaimed

/-- **The passes of a run consume the occurrences in order** exactly when they can plan the job. -/
theorem inOrder_iff (hcal : calendar.Increasing)
    (hinit : (passes calendar defaultTimezone).init s) (hjob : job ∈ s.jobs)
    (hfirst : job.nextRunAt = some first) (hnew : s.consumed job.id = [])
    (hschedule : resolveSchedule job defaultTimezone = .ok schedule)
    (hadvance : occurrencesFrom calendar schedule = .ok advance) :
    ((passes calendar defaultTimezone).restrict fun _ _ u => InOrder advance first job.id u).Run
        s ps t ↔
      ((passes calendar defaultTimezone).restrict fun u pass _ => Plans advance job.id u pass).Run
        s ps t := by
  have hadv := occurrencesFrom_increasing hcal hadvance
  have hstart : Tracked advance first job s := by
    refine ⟨hinit, some first, job.lastFiredAt, ?_, ?_⟩
    · rw [← hfirst]
      exact hjob
    · rw [hnew]
      exact .nil first
  refine Transition.System.Run.restrict_congr (I := Tracked advance first job) hstart ?_ ?_
  · intro u pass v hu hstep horder
    have hone := hu.step hadv hschedule hadvance hstep
    exact hone.1 (hone.2 horder)
  · intro u pass v hu hstep
    have hone := hu.step hadv hschedule hadvance hstep
    exact ⟨hone.2, fun hplans => (hone.1 hplans).inOrder hadv⟩

end InOrder

/-! ## A job with an unknown misfire policy -/

section EveryTenSeconds

/-- UTC in January 1970, and the cron expression of every minute. -/
def everyMinute : Calendar where
  isValidZone zone := zone = "UTC"
  parseError expression _ := if expression = "* * * * *" then none else some "Unknown expression"
  next _ _ after := .ok ((after / 60000 + 1) * 60000)
  localTime _ instant := ⟨1970, 1, instant / 86400000, (instant / 86400000 + 3) % 7 + 1,
    instant / 3600000 % 24⟩

theorem everyMinute_increasing : everyMinute.Increasing := by
  intro expression zone after fire h
  cases h
  omega

def everyTenSeconds (misfirePolicy : ScheduledJobMisfirePolicy) (misfireGraceSeconds : ℕ) :
    ScheduledJob where
  id := 1
  taskType := "poll"
  payload := .null
  kind := .interval
  cronExpression := none
  timezone := none
  intervalSeconds := some 10
  fireAt := none
  recurrenceUnit := none
  recurrenceSize := none
  enabled := true
  nextRunAt := some 0
  lastFiredAt := none
  maxAttempts := 1
  misfirePolicy := misfirePolicy
  misfireGraceSeconds := misfireGraceSeconds
  ownerKey := ""

/-- The table with that job, before any pass. -/
def stored (job : ScheduledJob) : Materialized := ⟨[job], 0, fun _ => [], fun _ => []⟩

def passAt (seconds : ℤ) (windowSeconds maxPerJob : ℕ) : Pass :=
  ⟨seconds * 1000, ⟨windowSeconds, 0, maxPerJob, 10, 7, "UTC"⟩⟩

theorem inOrder_iff_everyTenSeconds :
    ((passes everyMinute "UTC").restrict fun _ _ u => InOrder (intervalOccurrences 10) 0 1 u).Run
      (stored (everyTenSeconds .coalesce 5)) [passAt 25 60 5]
      ((passAt 25 60 5).run everyMinute (stored (everyTenSeconds .coalesce 5))) := by
  refine (@inOrder_iff everyMinute "UTC" (intervalOccurrences 10) 0 (everyTenSeconds .coalesce 5)
    (.interval 10) (stored (everyTenSeconds .coalesce 5)) _ _ everyMinute_increasing
    (List.nodup_singleton _) List.mem_cons_self rfl rfl rfl rfl).mpr (Transition.System.Run.nil.snoc ⟨⟨by decide, rfl, rfl⟩, ?_⟩)
  intro job hjob _ first hfirst
  obtain rfl := List.mem_singleton.mp (mem_claimed hjob).1
  refine .inl ⟨fun _ _ _ _ _ => ⟨_, rfl⟩, fun name hname => ?_⟩
  cases hname

/-- The job is deferred, and goes on at the time of the retry. -/
theorem not_inOrder : ∃ advance t, occurrencesFrom everyMinute (.interval 10) = .ok advance ∧
    (passes everyMinute "UTC").Run (stored (everyTenSeconds (.other "fire_all") 5))
      [passAt 20 0 5, passAt 27 0 5] t ∧
    t.consumed 1 = [27000] ∧ ¬ InOrder advance 0 1 t := by
  have hclaimed : (passAt 20 0 5).claimed [everyTenSeconds (.other "fire_all") 5] =
      [everyTenSeconds (.other "fire_all") 5] := by
    unfold Pass.claimed
    rw [claimDue_singleton]
    rfl
  obtain ⟨hjobs, hconsumed, -⟩ := @run_of_claimed_alone everyMinute (passAt 20 0 5)
    (stored (everyTenSeconds (.other "fire_all") 5)) _ rfl hclaimed
  set deferred := (everyTenSeconds (.other "fire_all") 5).advance
    ((passAt 20 0 5).planned everyMinute (everyTenSeconds (.other "fire_all") 5)).plan
    with hdeferred
  have hclaimed' : (passAt 27 0 5).claimed [deferred] = [deferred] := by
    unfold Pass.claimed
    rw [claimDue_singleton]
    rfl
  obtain ⟨-, hconsumed', -⟩ := run_of_claimed_alone hjobs hclaimed'
  have hlate : ((passAt 27 0 5).run everyMinute ((passAt 20 0 5).run everyMinute
      (stored (everyTenSeconds (.other "fire_all") 5)))).consumed 1 = [27000] := by
    refine hconsumed'.trans ?_
    rw [show deferred.id = (everyTenSeconds (.other "fire_all") 5).id from rfl, hconsumed]
    decide
  have hrun : (passes everyMinute "UTC").Run (stored (everyTenSeconds (.other "fire_all") 5))
      [passAt 20 0 5, passAt 27 0 5] _ :=
    .cons ⟨by decide, rfl, rfl⟩ (.cons ⟨by decide, rfl, rfl⟩ .nil)
  refine ⟨intervalOccurrences 10, _, rfl, hrun, hlate, fun h => ?_⟩
  -- the first occurrence is at 0
  have hfirst := h.consumed
  rw [hlate] at hfirst
  cases hfirst

end EveryTenSeconds

end N8n.Scheduler
