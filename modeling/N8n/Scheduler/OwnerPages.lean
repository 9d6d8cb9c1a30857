import Mathlib.Data.List.Dedup
import Mathlib.Data.List.Nodup
import N8n.Scheduler.Reconciliation

/-!
# The pages of a walk over owners

A page lists the first owners beyond a bound. An owner that is in the table is on the page, or the
page is full and the owner beyond it.

## Main definitions

* `Beyond`, `Covers`: the owners that are still to come
* `Quiet`: an operation that checks no owner and reads no page
* `PageStep`: what reading a page comes to

## Main results

* `pageStep_of_sweepPage`: a page is one of these
* `mem_page_or_beyond`: an owner is on the page or beyond a full one
-/

namespace N8n.Scheduler.Reconciliation

variable {T O : Type} {ids : List O} {liveness : Liveness O}

/-! ## Operations that check no owner -/

/-- The operation checks no owner and reads no page, and the log only grows. -/
structure Quiet (w w' : World T O) : Prop where
  checked : w'.checked = w.checked
  readings : w'.readings = w.readings
  log : w.log <+: w'.log

theorem Quiet.refl (w : World T O) : Quiet w w := ⟨rfl, rfl, List.prefix_refl _⟩

theorem Quiet.trans {w w' w'' : World T O} (h : Quiet w w') (k : Quiet w' w'') : Quiet w w'' :=
  ⟨k.checked.trans h.checked, k.readings.trans h.readings, h.log.trans k.log⟩

theorem Quiet.logged {w w' : World T O} (h : Quiet w w') (entries : List (Entry T O)) :
    Quiet w (w'.logged entries) :=
  ⟨h.checked, h.readings, h.log.trans (List.prefix_append _ _)⟩

section Operations

variable {env : Surroundings T O} {options : ReconciliationOptions} {ownerType : T}
  {clock : SweepClock} {ownerIds : List O} {w : World T O}

theorem quiet_begun : Quiet w (begun env w) := ⟨rfl, rfl, List.prefix_refl _⟩

theorem quiet_readNow : Quiet w (readNow env w).2 := quiet_begun

theorem quiet_askLiveness : Quiet w (askLiveness env ownerType ownerIds w).2 := by
  unfold askLiveness
  dsimp only
  split
  · exact quiet_begun.logged _
  · exact quiet_begun.logged _

theorem quiet_nextRunAtFor {job : OwnedJob T O} {now : ℤ} :
    Quiet w (nextRunAtFor env options job now w).2 := by
  unfold nextRunAtFor
  split
  · exact .refl w
  · exact (Quiet.refl w).logged _

theorem quiet_liftQuarantine {id : ℕ} {nextRunAt : Option ℤ} :
    Quiet w (liftQuarantine env id nextRunAt w).2 := ⟨rfl, rfl, List.prefix_refl _⟩

theorem quiet_lifts {now : ℤ} {jobs : List (OwnedJob T O)} {revived lifted : ℕ} :
    Quiet w (lifts env options now jobs revived lifted ownerIds w).2 := by
  induction jobs generalizing revived lifted ownerIds w with
  | nil => exact .refl w
  | cons job jobs ih =>
    rw [lifts]
    split_ifs
    · exact .refl w
    · exact (quiet_nextRunAtFor.trans quiet_liftQuarantine).trans ih
    · exact quiet_liftQuarantine.trans ih

variable [LinearOrder T] [LinearOrder O]

theorem quiet_quarantine : Quiet w (quarantine env ownerType ownerIds clock w).2 := by
  have hstore : Quiet w
      (quarantineByOwnerIds env ownerType ownerIds clock.now clock.settledBefore w).2 :=
    ⟨rfl, rfl, List.prefix_refl _⟩
  unfold quarantine
  dsimp only
  split_ifs
  · exact .refl w
  · exact hstore.logged _
  · exact hstore

theorem quiet_deleteExpired : Quiet w (deleteExpired env ownerType ownerIds clock w).2 := by
  have hstore : Quiet w
      (deleteQuarantinedByOwnerIds env ownerType ownerIds clock.quarantinedBefore w).2 :=
    ⟨rfl, rfl, List.prefix_refl _⟩
  unfold deleteExpired
  dsimp only
  split_ifs
  · exact .refl w
  · exact hstore.logged _
  · exact hstore

theorem quiet_revive : Quiet w (revive env options ownerType ownerIds w).2 := by
  have hstore : Quiet w
      (findQuarantinedByOwnerIds env ownerType ownerIds options.batchSize w).2 :=
    ⟨rfl, rfl, List.prefix_refl _⟩
  unfold revive
  dsimp only
  split_ifs
  · exact .refl w
  · exact hstore
  · exact ((hstore.trans quiet_readNow).trans quiet_lifts).logged _
  · exact (hstore.trans quiet_readNow).trans quiet_lifts

theorem quiet_settlePage {quarantined : ℕ} :
    Quiet w (settlePage env options ownerType clock ownerIds quarantined liveness w).2 := by
  have hrevive : Quiet w (revive env options ownerType liveness.alive
      (deleteExpired env ownerType liveness.missing clock w).2).2 :=
    quiet_deleteExpired.trans quiet_revive
  unfold settlePage
  dsimp only
  split_ifs
  · exact hrevive
  · exact hrevive
  · split
    · exact hrevive
    · exact hrevive

end Operations

/-! ## The owners of a page -/

section Pages

variable [LinearOrder T] [LinearOrder O]

def Beyond (after : Option O) (ownerId : O) : Prop := ∀ bound ∈ after, bound < ownerId

theorem Beyond.trans {after : Option O} {last ownerId : O} (h : Beyond after last)
    (hlast : last < ownerId) : Beyond after ownerId :=
  fun bound hbound => (h bound hbound).trans hlast

variable {jobs : List (OwnedJob T O)} {ownerType : T} {settledBefore : ℤ} {after : Option O}
  {ownerId : O}

theorem mem_sortedOwnerIds : ownerId ∈ sortedOwnerIds jobs ownerType settledBefore after ↔
    Beyond after ownerId ∧ ∃ job ∈ jobs, job.ownerType = ownerType ∧ job.ownerId = ownerId ∧
      job.createdAt ≤ settledBefore := by
  simp only [sortedOwnerIds, List.mem_insertionSort, List.mem_dedup, List.mem_map, List.mem_filter,
    decide_eq_true_eq, Beyond]
  constructor
  · rintro ⟨job, ⟨hjob, htype, hsettled, hbeyond⟩, rfl⟩
    exact ⟨hbeyond, job, hjob, htype, rfl, hsettled⟩
  · rintro ⟨hbeyond, job, hjob, htype, rfl, hsettled⟩
    exact ⟨job, ⟨hjob, htype, hsettled, hbeyond⟩, rfl⟩

/-- A list without repetitions is strictly ascending when it is sorted. -/
theorem pairwise_lt_insertionSort_dedup {α : Type} [LinearOrder α] (l : List α) :
    (l.dedup.insertionSort (· ≤ ·)).Pairwise (· < ·) := by
  have hsorted := List.pairwise_insertionSort (· ≤ ·) l.dedup
  have hnodup : (l.dedup.insertionSort (· ≤ ·)).Nodup :=
    (List.perm_insertionSort (· ≤ ·) l.dedup).nodup_iff.mpr l.nodup_dedup
  exact hsorted.imp₂ (fun _ _ hle hne => lt_of_le_of_ne hle hne) hnodup

theorem pairwise_sortedOwnerIds :
    (sortedOwnerIds jobs ownerType settledBefore after).Pairwise (· < ·) :=
  pairwise_lt_insertionSort_dedup _

/-- **An owner is on the page**, or the page is full and the owner beyond all of it. -/
theorem mem_page_or_beyond (limit : ℕ)
    (h : ownerId ∈ sortedOwnerIds jobs ownerType settledBefore after) :
    ownerId ∈ (sortedOwnerIds jobs ownerType settledBefore after).take limit ∨
      ((sortedOwnerIds jobs ownerType settledBefore after).take limit).length = limit ∧
        ∀ other ∈ (sortedOwnerIds jobs ownerType settledBefore after).take limit,
          other < ownerId := by
  have hsorted := @pairwise_sortedOwnerIds T O _ _ jobs ownerType settledBefore after
  rw [← List.take_append_drop limit (sortedOwnerIds jobs ownerType settledBefore after)]
    at h hsorted
  rcases List.mem_append.mp h with h | h
  · exact .inl h
  · refine .inr ⟨?_, fun other hother => (List.pairwise_append.mp hsorted).2.2 _ hother _ h⟩
    rw [List.length_take, Nat.min_eq_left]
    have hpos := List.length_pos_of_mem h
    rw [List.length_drop] at hpos
    exact (Nat.lt_of_sub_pos hpos).le

/-- The last owner of an ascending page is the greatest. -/
theorem le_getLast {last : O} (h : ids.Pairwise (· < ·)) (hlast : ids.getLast? = some last) :
    last ∈ ids ∧ ∀ ownerId ∈ ids, ownerId ≤ last := by
  obtain ⟨init, rfl⟩ := List.getLast?_eq_some_iff.mp hlast
  refine ⟨by simp, fun ownerId hid => ?_⟩
  rcases List.mem_append.mp hid with hid | hid
  · exact ((List.pairwise_append.mp h).2.2 _ hid _ (List.mem_singleton.mpr rfl)).le
  · exact (List.mem_singleton.mp hid).le

end Pages

/-! ## What reading a page comes to -/

section PageStep

variable (env : Surroundings T O) (options : ReconciliationOptions) [LinearOrder T] [LinearOrder O]

/-- A page is empty, its resolver fails, or its owners are checked. Then it is left unfinished, the
last page, or a full one. -/
inductive PageStep (ownerType : T) (clock : SweepClock) (after : Option O) (w : World T O) :
    PageResult O → World T O → Prop
  | empty {w' : World T O} {jobs : List (OwnedJob T O)}
      (hids : (sortedOwnerIds jobs ownerType clock.settledBefore after).take options.batchSize = [])
      (hreadings : w'.readings = w.readings ++ [⟨some clock.settledBefore, jobs⟩])
      (hchecked : w'.checked = w.checked) (hlog : w.log <+: w'.log) :
      PageStep ownerType clock after w (.drained noTotals) w'
  | unanswered {w' : World T O} {jobs : List (OwnedJob T O)} {ids : List O} {n : ℕ}
      (hanswer : env.findExisting n ownerType ids = none)
      (hreadings : w'.readings = w.readings ++ [⟨some clock.settledBefore, jobs⟩])
      (hchecked : w'.checked = w.checked) (hlog : w.log <+: w'.log) :
      PageStep ownerType clock after w (.failed noTotals) w'
  | checked {w' : World T O} {jobs : List (OwnedJob T O)} {ids : List O} {page : PageResult O}
      (hids :
        (sortedOwnerIds jobs ownerType clock.settledBefore after).take options.batchSize = ids)
      (hreadings : w'.readings = w.readings ++ [⟨some clock.settledBefore, jobs⟩])
      (hchecked : w'.checked = w.checked ++ ids.map fun ownerId => (ownerType, ownerId))
      (hlog : w.log <+: w'.log)
      (hpage : (page.outcome = .failed ∧ ∃ n ids, env.findExisting n ownerType ids = none) ∨
        page.outcome = .unfinished ∨
        page.outcome = .drained ∧ ids.length < options.batchSize ∨
        ∃ totals last, page = .swept totals last ∧ ids.getLast? = some last) :
      PageStep ownerType clock after w page w'

variable {env options}
variable {ownerType : T} {clock : SweepClock} {after : Option O} {w : World T O}

theorem settlePage_result {quarantined : ℕ} (hids : ids ≠ []) :
    (settlePage env options ownerType clock ids quarantined liveness w).1.outcome = .unfinished ∨
      (settlePage env options ownerType clock ids quarantined liveness w).1.outcome = .drained ∧
        ids.length < options.batchSize ∨
      ∃ totals last, (settlePage env options ownerType clock ids quarantined liveness w).1 =
        .swept totals last ∧ ids.getLast? = some last := by
  unfold settlePage
  dsimp only
  split_ifs with hunfinished hshort
  · exact .inl rfl
  · exact .inr (.inl ⟨rfl, hshort⟩)
  · split
    · rename_i hlast
      exact absurd (List.getLast?_eq_none_iff.mp hlast) hids
    · rename_i last hlast
      exact .inr (.inr ⟨_, last, rfl, hlast⟩)

omit [LinearOrder T] [LinearOrder O] in
theorem findExisting_of_askLiveness (h : (askLiveness env ownerType ids w).1 = none) :
    ∃ n, env.findExisting n ownerType ids = none := by
  unfold askLiveness at h
  dsimp only at h
  split at h
  · exact ⟨_, by assumption⟩
  · cases h

theorem pageStep_of_sweepPage :
    PageStep env options ownerType clock after w
      (sweepPage env options ownerType clock after w).1
      (sweepPage env options ownerType clock after w).2 := by
  let read := findOwnerIds env ownerType clock.settledBefore options.batchSize after w
  let ids := read.1
  have hask : Quiet read.2 (askLiveness env ownerType ids read.2).2 := quiet_askLiveness
  unfold sweepPage
  dsimp only
  split_ifs with hids
  · exact .empty hids rfl rfl (List.prefix_refl _)
  · split
    · rename_i answered hanswered
      rw [hanswered] at hask
      obtain ⟨n, hn⟩ := findExisting_of_askLiveness (congrArg Prod.fst hanswered)
      exact .unanswered hn hask.readings hask.checked hask.log
    · rename_i alive missing answered hanswered
      rw [hanswered] at hask
      let noted : World T O :=
        { answered with
          checked := answered.checked ++ ids.map fun ownerId => (ownerType, ownerId) }
      have hquarantine : Quiet noted (quarantine env ownerType missing clock noted).2 :=
        quiet_quarantine
      -- whatever follows the check reads no page and checks no owner
      have hrest : ∀ {page : PageResult O} {w' : World T O},
          Quiet (quarantine env ownerType missing clock noted).2 w' →
          ((page.outcome = .failed ∧ ∃ n ids, env.findExisting n ownerType ids = none) ∨
            page.outcome = .unfinished ∨
            page.outcome = .drained ∧ ids.length < options.batchSize ∨
            ∃ totals last, page = .swept totals last ∧ ids.getLast? = some last) →
          PageStep env options ownerType clock after w page w' := by
        intro page w' hquiet hpage
        have hall := hquarantine.trans hquiet
        refine .checked rfl (hall.readings.trans hask.readings) (hall.checked.trans ?_)
          (hask.log.trans hall.log) hpage
        show answered.checked ++ _ = w.checked ++ _
        rw [hask.checked]
        rfl
      split_ifs
      · split
        · rename_i rechecked hrechecked
          obtain ⟨n, hn⟩ := findExisting_of_askLiveness (congrArg Prod.fst hrechecked)
          have hquiet := @quiet_askLiveness T O env ownerType missing
            (quarantine env ownerType missing clock noted).2
          rw [hrechecked] at hquiet
          exact hrest hquiet (.inl ⟨rfl, n, _, hn⟩)
        · rename_i recheck rechecked hrechecked
          have hquiet := @quiet_askLiveness T O env ownerType missing
            (quarantine env ownerType missing clock noted).2
          rw [hrechecked] at hquiet
          exact hrest (hquiet.trans quiet_settlePage) (.inr (settlePage_result hids))
      · exact hrest quiet_settlePage (.inr (settlePage_result hids))

end PageStep

end N8n.Scheduler.Reconciliation
