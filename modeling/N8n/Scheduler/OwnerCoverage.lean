import Mathlib.Data.List.TakeWhile
import N8n.Scheduler.OwnerPages

/-!
# Which owners a chain of passes checks

Each pass starts where the one before it stopped. An owner that is in the table throughout, and
whose resolver answers, is either checked or still to come, and so it is checked once a pass has
covered everything. When nothing makes a pass go back, no owner is checked twice.

## Main definitions

* `Stays`: the owner has a settled job whenever the walk reads the table
* `Orderly`: nothing has made a pass go back
* `passes`: a chain of passes

## Main results

* `reconcile_covers`: what a pass leaves out is to come for the next one
* `reconcile_fresh`: a pass checks owners that are to come, and none of those it leaves
* `checked_of_passes`, `nodup_checked_passes`: the same of a chain
-/

namespace N8n.Scheduler.Reconciliation

variable {T O : Type} {ownerId : O} {ownerType : T}

/-- The owner has a settled job whenever the walk reads the table. -/
def Stays (w : World T O) (ownerType : T) (ownerId : O) : Prop :=
  ∀ reading ∈ w.readings, ∃ job ∈ reading.jobs, job.ownerType = ownerType ∧
    job.ownerId = ownerId ∧ ∀ bound ∈ reading.settledBefore, job.createdAt ≤ bound

instance {w : World T O} {ownerType : T} {ownerId : O} [DecidableEq T] [DecidableEq O] :
    Decidable (Stays w ownerType ownerId) :=
  inferInstanceAs (Decidable (∀ reading ∈ w.readings, ∃ job ∈ reading.jobs,
    job.ownerType = ownerType ∧ job.ownerId = ownerId ∧
      ∀ bound ∈ reading.settledBefore, job.createdAt ≤ bound))

/-- A resolver is registered for the type, and can always tell. -/
def Answers (env : Surroundings T O) (ownerType : T) : Prop :=
  ∀ n, env.claimed n ownerType = true ∧ ∀ ids, env.findExisting n ownerType ids ≠ none

/-- What makes a pass, or the next one, go back. -/
def Entry.goesBack : Entry T O → Bool
  | .startedOver | .unclaimedOwnerType _ | .page _ .unfinished | .page _ .failed => true
  | .asked _ _ _ | .resolverFailed _ | .quarantined _ _ | .deleted _ _ _ | .revived _ _ _
  | .reviveClockFailed _ _ | .page _ .swept | .page _ .drained => false
  | .stoppedBefore _ after => after.isSome

/-- Nothing has made a pass go back: no page is left unfinished, no owner type is skipped or lost to
its resolver, no cursor is past every type, and no pass is cancelled before the type in which it
resumes. -/
def Orderly (w : World T O) : Prop := ∀ entry ∈ w.log, entry.goesBack = false

instance {w : World T O} : Decidable (Orderly w) :=
  inferInstanceAs (Decidable (∀ entry ∈ w.log, entry.goesBack = false))

/-! ## What has happened so far stays -/

structure Grows (w w' : World T O) : Prop where
  log : w.log <+: w'.log
  checked : w.checked <+: w'.checked
  readings : w.readings <+: w'.readings

section Grows

variable {w w' w'' : World T O}

theorem Grows.refl (w : World T O) : Grows w w :=
  ⟨List.prefix_refl _, List.prefix_refl _, List.prefix_refl _⟩

theorem Grows.trans (h : Grows w w') (k : Grows w' w'') : Grows w w'' :=
  ⟨h.log.trans k.log, h.checked.trans k.checked, h.readings.trans k.readings⟩

theorem Quiet.grows (h : Quiet w w') : Grows w w' :=
  ⟨h.log, h.checked ▸ List.prefix_refl _, h.readings ▸ List.prefix_refl _⟩

theorem Grows.stays (h : Grows w w') (hs : Stays w' ownerType ownerId) :
    Stays w ownerType ownerId :=
  fun reading hreading => hs reading (h.readings.subset hreading)

theorem Grows.orderly (h : Grows w w') (ho : Orderly w') : Orderly w :=
  fun entry hentry => ho entry (h.log.subset hentry)

end Grows

variable [LinearOrder T] [LinearOrder O] {env : Surroundings T O} {options : ReconciliationOptions}

/-! ## A page -/

section Page

variable {clock : SweepClock} {after : Option O} {w w' : World T O} {page : PageResult O}

theorem PageStep.grows (h : PageStep env options ownerType clock after w page w') :
    Grows w w' := by
  cases h with
  | empty hids hreadings hchecked hlog | unanswered hanswer hreadings hchecked hlog =>
    exact ⟨hlog, hchecked ▸ List.prefix_refl _, hreadings ▸ List.prefix_append _ _⟩
  | checked hids hreadings hchecked hlog =>
    exact ⟨hlog, hchecked ▸ List.prefix_append _ _, hreadings ▸ List.prefix_append _ _⟩

/-- An owner beyond the bound is checked, or beyond the page as well, or the page is read again. -/
theorem PageStep.covers (h : PageStep env options ownerType clock after w page w')
    (hbeyond : Beyond after ownerId) (hstays : Stays w' ownerType ownerId)
    (hanswers : Answers env ownerType) :
    (ownerType, ownerId) ∈ w'.checked ∨ page.outcome = .unfinished ∨
      ∃ totals last, page = .swept totals last ∧ last < ownerId := by
  have hlisted : ∀ {jobs : List (OwnedJob T O)},
      w'.readings = w.readings ++ [⟨some clock.settledBefore, jobs⟩] →
      ownerId ∈ sortedOwnerIds jobs ownerType clock.settledBefore after := by
    intro jobs hreadings
    obtain ⟨job, hjob, htype, hid, hsettled⟩ := hstays _ (hreadings ▸ List.mem_concat_self)
    exact mem_sortedOwnerIds.mpr ⟨hbeyond, job, hjob, htype, hid, hsettled _ rfl⟩
  cases h with
  | empty hids hreadings =>
    rcases mem_page_or_beyond options.batchSize (hlisted hreadings) with hin | ⟨hfull, -⟩
    · rw [hids] at hin
      cases hin
    · rw [hids] at hfull
      exact absurd hfull.symm options.batchSize_pos.ne'
  | unanswered hanswer => exact absurd hanswer ((hanswers _).2 _)
  | @checked _ jobs ids _ hids hreadings hchecked hlog hpage =>
    rcases mem_page_or_beyond options.batchSize (hlisted hreadings) with
      hin | ⟨hfull, hlast⟩
    · left
      rw [hchecked]
      exact List.mem_append_right _ (List.mem_map_of_mem (hids ▸ hin))
    · -- the page is full, so that it is not the last one
      rw [hids] at hfull hlast
      rcases hpage with ⟨-, n, asked, hfailed⟩ | hunfinished | ⟨-, hshort⟩ | ⟨totals, last, hp, hl⟩
      · exact absurd hfailed ((hanswers n).2 asked)
      · exact .inr (.inl hunfinished)
      · exact absurd hfull hshort.ne
      · exact .inr (.inr ⟨totals, last, hp, hlast last (List.mem_of_getLast? hl)⟩)

/-- A page that is neither lost nor unfinished checks owners beyond the bound, up to its last. -/
theorem PageStep.fresh (h : PageStep env options ownerType clock after w page w')
    (hfailed : page.outcome ≠ .failed) :
    ∃ ids : List O, w'.checked = w.checked ++ ids.map (fun ownerId => (ownerType, ownerId)) ∧
      ids.Nodup ∧ (∀ ownerId ∈ ids, Beyond after ownerId) ∧
      ∀ totals last, page = .swept totals last →
        Beyond after last ∧ ∀ ownerId ∈ ids, ownerId ≤ last := by
  cases h with
  | empty hids hreadings hchecked hlog =>
    exact ⟨[], by simpa using hchecked, List.nodup_nil, nofun, nofun⟩
  | unanswered => exact absurd rfl hfailed
  | @checked _ jobs ids _ hids hreadings hchecked hlog hpage =>
    have hsorted : ids.Pairwise (· < ·) := hids ▸ pairwise_sortedOwnerIds.take
    have hbeyond : ∀ ownerId ∈ ids, Beyond after ownerId := fun ownerId hid =>
      (mem_sortedOwnerIds.mp (List.mem_of_mem_take (hids ▸ hid))).1
    refine ⟨ids, hchecked, hsorted.imp fun hlt => hlt.ne, hbeyond, ?_⟩
    rintro totals last rfl
    rcases hpage with ⟨hp, -⟩ | hp | ⟨hp, -⟩ | ⟨_, last', hp, hlast⟩
    · cases hp
    · cases hp
    · cases hp
    · cases hp
      obtain ⟨hin, hle⟩ := le_getLast hsorted hlast
      exact ⟨hbeyond last hin, hle⟩

end Page

/-! ## An owner type -/

/-- What the walk over an owner type comes to, with so many pages before it and left. -/
structure TypeSwept (env : Surroundings T O) (ownerType : T) (left pages : ℕ) (after : Option O)
    (w : World T O) (swept : SweepResult O) (w' : World T O) : Prop where
  grows : Grows w w'
  covers : ∀ ownerId, Beyond after ownerId → Stays w' ownerType ownerId → Answers env ownerType →
    (ownerType, ownerId) ∈ w'.checked ∨ swept.outcome = .stopped ∧ Beyond swept.after ownerId
  fresh : Orderly w' → swept.outcome ≠ .failed ∧
    ∃ ids : List O, w'.checked = w.checked ++ ids.map (fun ownerId => (ownerType, ownerId)) ∧
      ids.Nodup ∧ (∀ ownerId ∈ ids, Beyond after ownerId) ∧
      (swept.outcome = .stopped → (∀ ownerId, Beyond swept.after ownerId → Beyond after ownerId) ∧
        (∀ ownerId ∈ ids, ¬ Beyond swept.after ownerId) ∧
        (env.aborted w'.tick = true ∨ swept.pages = pages + left))

section OwnerType

variable {clock : SweepClock} {after : Option O} {w w' : World T O} {page : PageResult O}
  {left pages : ℕ} {totals : SweepTotals} {swept : SweepResult O}

omit [LinearOrder T] in
theorem TypeSwept.stopped (h : env.aborted w.tick = true ∨ left = 0) :
    TypeSwept env ownerType left pages after w ⟨totals, pages, .stopped, after⟩ w where
  grows := .refl w
  covers _ hbeyond _ _ := .inr ⟨rfl, hbeyond⟩
  fresh _ := ⟨nofun, [], by simp, List.nodup_nil, nofun,
    fun _ => ⟨fun _ => id, nofun, h.imp_right fun hleft => by simp [hleft]⟩⟩

omit [LinearOrder T] [LinearOrder O] in
theorem not_goesBack (h : Orderly (w.logged [.page ownerType page.outcome])) :
    page.outcome ≠ .failed ∧ page.outcome ≠ .unfinished := by
  have hpage := h (.page ownerType page.outcome)
    (List.mem_append_right _ (List.mem_singleton.mpr rfl))
  constructor
  · intro hfailed
    rw [hfailed] at hpage
    cases hpage
  · intro hunfinished
    rw [hunfinished] at hpage
    cases hpage

theorem TypeSwept.unfinished (h : PageStep env options ownerType clock after w page w')
    (hpage : page.outcome = .unfinished) :
    TypeSwept env ownerType left pages after w ⟨totals, pages + 1, .stopped, after⟩
      (w'.logged [.page ownerType page.outcome]) where
  grows := h.grows.trans ((Quiet.refl w').logged _).grows
  covers _ hbeyond _ _ := .inr ⟨rfl, hbeyond⟩
  fresh ho := absurd hpage (not_goesBack ho).2

theorem TypeSwept.failed (h : PageStep env options ownerType clock after w page w')
    (hpage : page.outcome = .failed) :
    TypeSwept env ownerType left pages after w ⟨totals, pages + 1, .failed, none⟩
      (w'.logged [.page ownerType page.outcome]) where
  grows := h.grows.trans ((Quiet.refl w').logged _).grows
  covers ownerId hbeyond hstays hanswers := by
    rcases h.covers hbeyond hstays hanswers with hin | hunfinished | ⟨_, last, rfl, -⟩
    · exact .inl hin
    · exact absurd (hpage.symm.trans hunfinished) nofun
    · cases hpage
  fresh ho := absurd hpage (not_goesBack ho).1

theorem TypeSwept.drained (h : PageStep env options ownerType clock after w page w')
    (hpage : page.outcome = .drained) :
    TypeSwept env ownerType left pages after w ⟨totals, pages + 1, .drained, none⟩
      (w'.logged [.page ownerType page.outcome]) where
  grows := h.grows.trans ((Quiet.refl w').logged _).grows
  covers ownerId hbeyond hstays hanswers := by
    rcases h.covers hbeyond hstays hanswers with hin | hunfinished | ⟨_, last, rfl, -⟩
    · exact .inl hin
    · exact absurd (hpage.symm.trans hunfinished) nofun
    · cases hpage
  fresh ho := by
    obtain ⟨ids, hchecked, hnodup, hbeyond, -⟩ := h.fresh (not_goesBack ho).1
    exact ⟨nofun, ids, hchecked, hnodup, hbeyond, nofun⟩

theorem TypeSwept.next {last : O} {pageTotals : SweepTotals} {w'' : World T O}
    (h : PageStep env options ownerType clock after w (.swept pageTotals last) w')
    (k : TypeSwept env ownerType left (pages + 1) (some last)
      (w'.logged [.page ownerType .swept]) swept w'') :
    TypeSwept env ownerType (left + 1) pages after w swept w'' where
  grows := (h.grows.trans ((Quiet.refl w').logged _).grows).trans k.grows
  covers ownerId hbeyond hstays hanswers := by
    have hstays' : Stays w' ownerType ownerId :=
      (((Quiet.refl w').logged _).grows.trans k.grows).stays hstays
    rcases h.covers hbeyond hstays' hanswers with hin | hunfinished | ⟨_, _, ⟨⟩, hlast⟩
    · exact .inl (k.grows.checked.subset hin)
    · cases hunfinished
    · refine k.covers ownerId ?_ hstays hanswers
      rintro _ ⟨⟩
      exact hlast
  fresh ho := by
    obtain ⟨ids, hchecked, hnodup, hbeyond, hlast⟩ := h.fresh nofun
    obtain ⟨hlast, hle⟩ := hlast _ _ rfl
    obtain ⟨hfailed, rest, hrest, hrestNodup, hrestBeyond, hstopped⟩ := k.fresh ho
    have hafter : ∀ ownerId, Beyond (some last) ownerId → Beyond after ownerId :=
      fun ownerId hb => hlast.trans (hb last rfl)
    refine ⟨hfailed, ids ++ rest, ?_, ?_, ?_, fun hs => ?_⟩
    · rw [hrest, List.map_append, ← List.append_assoc, ← hchecked]
      rfl
    · -- the owners of later pages are beyond the last one of this page
      refine List.nodup_append.mpr ⟨hnodup, hrestNodup, ?_⟩
      rintro ownerId hid _ hrid rfl
      exact absurd (hrestBeyond ownerId hrid last rfl) (hle ownerId hid).not_gt
    · intro ownerId hid
      rcases List.mem_append.mp hid with hid | hid
      · exact hbeyond ownerId hid
      · exact hafter ownerId (hrestBeyond ownerId hid)
    · obtain ⟨hmono, hbehind, hwhy⟩ := hstopped hs
      refine ⟨fun ownerId hb => hafter ownerId (hmono ownerId hb), fun ownerId hid hb => ?_, ?_⟩
      · rcases List.mem_append.mp hid with hid | hid
        · exact absurd (hmono ownerId hb last rfl) (hle ownerId hid).not_gt
        · exact hbehind ownerId hid hb
      · exact hwhy.imp_right fun hpages => by rw [hpages]; omega

theorem typeSwept_of_sweepPages :
    TypeSwept env ownerType left pages after w
      (sweepPages env options ownerType clock left totals pages after w).1
      (sweepPages env options ownerType clock left totals pages after w).2 := by
  induction left generalizing totals pages after w with
  | zero => exact .stopped (.inr rfl)
  | succ left ih =>
    have hpage := @pageStep_of_sweepPage T O env options _ _ ownerType clock after w
    rw [sweepPages]
    split_ifs with haborted
    · exact .stopped (.inl haborted)
    · generalize sweepPage env options ownerType clock after w = swept at hpage ⊢
      obtain ⟨page, w'⟩ := swept
      cases page with
      | failed _ => exact .failed hpage rfl
      | unfinished _ => exact .unfinished hpage rfl
      | drained _ => exact .drained hpage rfl
      | swept _ last => exact .next hpage ih

end OwnerType

/-! ## A pass -/

/-- The owner is still to come for a pass that starts at the cursor. -/
def Covers (cursor : Option (ReconciliationCursor T O)) (ownerType : T) (ownerId : O) : Prop :=
  ∀ c ∈ cursor, c.ownerType < ownerType ∨ ownerType = c.ownerType ∧ Beyond c.after ownerId

structure Walked (env : Surroundings T O) (resumeFrom : Option (ReconciliationCursor T O))
    (ownerTypes : List T) (summary : ReconciliationSummary T O) (w : World T O)
    (summary' : ReconciliationSummary T O) (w' : World T O) : Prop where
  grows : Grows w w'
  kept : ∀ c, summary.resumeFrom = some c → summary'.resumeFrom = some c
  covers : (∀ c, summary.resumeFrom = some c → ∀ ownerType ∈ ownerTypes, c.ownerType < ownerType) →
    ∀ ownerType ∈ ownerTypes, ∀ ownerId, Beyond (startAfter resumeFrom ownerType) ownerId →
      Stays w' ownerType ownerId → Answers env ownerType →
      (ownerType, ownerId) ∈ w'.checked ∨
        ∃ c, summary'.resumeFrom = some c ∧ Covers (some c) ownerType ownerId
  drained : (summary.resumeFrom ≠ none → summary.drained = false) →
    summary'.resumeFrom ≠ none → summary'.drained = false
  resumes : Orderly w' → (summary.drained = false → summary.resumeFrom ≠ none) →
    summary'.drained = false → summary'.resumeFrom ≠ none
  fresh : Orderly w' → summary.resumeFrom = none →
    ∃ new : List (T × O), w'.checked = w.checked ++ new ∧ new.Nodup ∧
      (∀ owner ∈ new, owner.1 ∈ ownerTypes ∧ Beyond (startAfter resumeFrom owner.1) owner.2) ∧
      ∀ c, summary'.resumeFrom = some c → c.ownerType ∈ ownerTypes ∧
        (∀ ownerId, Beyond c.after ownerId → Beyond (startAfter resumeFrom c.ownerType) ownerId) ∧
        ∀ owner ∈ new, ¬ Covers (some c) owner.1 owner.2

section Walk

variable {clock : SweepClock} {resumeFrom : Option (ReconciliationCursor T O)}
  {ownerTypes : List T} {summary summary₁ summary' : ReconciliationSummary T O}
  {w w₁ w' : World T O} {budget : ℕ} {swept : SweepResult O}

theorem Walked.nil : Walked env resumeFrom [] summary w summary w where
  grows := .refl w
  kept _ h := h
  covers _ := nofun
  drained h := h
  resumes _ h := h
  fresh _ hnone := ⟨[], by simp, List.nodup_nil, nofun, fun c hc => by
    rw [hnone] at hc
    cases hc⟩

theorem Walked.stopped (hsorted : (ownerType :: ownerTypes).Pairwise (· < ·)) :
    Walked env resumeFrom (ownerType :: ownerTypes) summary w
      { summary with
        drained := false, resumeFrom := summary.resumeFrom.or (some ⟨ownerType, none⟩) }
      (w.logged [.stoppedBefore ownerType (startAfter resumeFrom ownerType)]) where
  grows := ((Quiet.refl w).logged _).grows
  kept c hc := by simp [hc]
  covers hbefore t ht ownerId _ _ _ := by
    right
    cases hc : summary.resumeFrom with
    | none =>
      refine ⟨⟨ownerType, none⟩, rfl, ?_⟩
      rintro _ ⟨⟩
      rcases List.mem_cons.mp ht with rfl | ht
      · exact .inr ⟨rfl, nofun⟩
      · exact .inl ((List.pairwise_cons.mp hsorted).1 t ht)
    | some c =>
      refine ⟨c, rfl, ?_⟩
      rintro _ ⟨⟩
      exact .inl (hbefore c hc t ht)
  drained _ _ := rfl
  resumes _ _ _ := by cases summary.resumeFrom <;> nofun
  fresh ho hnone := by
    have hstart : startAfter resumeFrom ownerType = none := by
      apply Option.isNone_iff_eq_none.mp
      apply Option.isSome_eq_false_iff.mp
      exact ho _ (List.mem_append_right _ (List.mem_singleton.mpr rfl))
    refine ⟨[], by simp [World.logged], List.nodup_nil, nofun, fun c hc => ?_⟩
    rw [hnone] at hc
    cases hc
    exact ⟨List.mem_cons_self, fun ownerId _ => by rw [hstart]; nofun, nofun⟩

theorem Walked.unclaimed (hunclaimed : env.claimed w.tick ownerType = false)
    (k : Walked env resumeFrom ownerTypes
      { summary with
        skippedOwnerTypes := summary.skippedOwnerTypes ++ [ownerType], drained := false }
      (w.logged [.unclaimedOwnerType ownerType]) summary' w') :
    Walked env resumeFrom (ownerType :: ownerTypes) summary w summary' w' where
  grows := ((Quiet.refl w).logged _).grows.trans k.grows
  kept := k.kept
  covers hbefore t ht ownerId hbeyond hstays hanswers := by
    rcases List.mem_cons.mp ht with rfl | ht
    · exact absurd ((hanswers w.tick).1.symm.trans hunclaimed) nofun
    · exact k.covers (fun c hc t ht => hbefore c hc t (List.mem_cons_of_mem _ ht)) t ht ownerId
        hbeyond hstays hanswers
  drained _ := k.drained fun _ => rfl
  resumes ho := absurd (k.grows.orderly ho _ (List.mem_append_right _ (List.mem_singleton.mpr rfl)))
    nofun
  fresh ho := absurd (k.grows.orderly ho _ (List.mem_append_right _ (List.mem_singleton.mpr rfl)))
    nofun

/-- A pass that is cancelled, or whose budget is spent, checks no more owners. -/
theorem checked_walk_of_stopped (h : env.aborted w.tick = true ∨ budget = 0) :
    (walk env options clock resumeFrom ownerTypes budget summary w).2.checked = w.checked := by
  cases ownerTypes with
  | nil => rfl
  | cons ownerType ownerTypes =>
    rw [walk, if_pos h]
    rfl

theorem Walked.next (hsorted : (ownerType :: ownerTypes).Pairwise (· < ·))
    (h : TypeSwept env ownerType budget 0 (startAfter resumeFrom ownerType) w swept w₁)
    (hdrained : summary₁.drained = (summary.drained && swept.outcome = .drained))
    (hresume : summary₁.resumeFrom = if swept.outcome = .stopped then
      summary.resumeFrom.or (some ⟨ownerType, swept.after⟩) else summary.resumeFrom)
    (k : Walked env resumeFrom ownerTypes summary₁ w₁ summary' w')
    (hstop : env.aborted w₁.tick = true ∨ swept.pages = budget → w'.checked = w₁.checked) :
    Walked env resumeFrom (ownerType :: ownerTypes) summary w summary' w' where
  grows := h.grows.trans k.grows
  kept c hc := by
    apply k.kept
    rw [hresume, hc]
    split_ifs <;> rfl
  covers hbefore t ht ownerId hbeyond hstays hanswers := by
    obtain ⟨hfirst, hsorted⟩ := List.pairwise_cons.mp hsorted
    rcases List.mem_cons.mp ht with rfl | ht
    · rcases h.covers ownerId hbeyond (k.grows.stays hstays) hanswers with hin | ⟨hs, hafter⟩
      · exact .inl (k.grows.checked.subset hin)
      · right
        rw [if_pos hs] at hresume
        cases hc : summary.resumeFrom with
        | none =>
          rw [hc] at hresume
          refine ⟨_, k.kept _ hresume, ?_⟩
          rintro _ ⟨⟩
          exact .inr ⟨rfl, hafter⟩
        | some c =>
          rw [hc] at hresume
          refine ⟨_, k.kept _ hresume, ?_⟩
          rintro _ ⟨⟩
          exact .inl (hbefore c hc t List.mem_cons_self)
    · refine k.covers (fun c hc u hu => ?_) t ht ownerId hbeyond hstays hanswers
      rw [hresume] at hc
      have hkept : summary.resumeFrom = some c → c.ownerType < u :=
        fun hc => hbefore c hc u (List.mem_cons_of_mem _ hu)
      split_ifs at hc with hs
      · rcases Option.or_eq_some_iff.mp hc with hc | ⟨-, hc⟩
        · exact hkept hc
        · cases hc
          exact hfirst u hu
      · exact hkept hc
  drained hd := by
    refine k.drained fun hne => ?_
    rw [hdrained]
    rw [hresume] at hne
    split_ifs at hne with hs
    · simp [hs]
    · simp [hd hne]
  resumes ho hr := by
    refine k.resumes ho fun hd => ?_
    rw [hdrained] at hd
    rw [hresume]
    rcases Bool.and_eq_false_iff.mp hd with hd | hd
    · split_ifs
      · cases hc : summary.resumeFrom with
        | none => nofun
        | some c => nofun
      · exact hr hd
    · have hs : swept.outcome = .stopped := by
        have hfailed := (h.fresh (k.grows.orderly ho)).1
        cases hs : swept.outcome with
        | stopped => rfl
        | failed => exact absurd hs hfailed
        | drained =>
          rw [hs] at hd
          cases hd
      rw [if_pos hs]
      cases summary.resumeFrom <;> nofun
  fresh ho hnone := by
    obtain ⟨hfirst, hsorted⟩ := List.pairwise_cons.mp hsorted
    obtain ⟨hfailed, ids, hchecked, hnodup, hbeyond, hstopped⟩ := h.fresh (k.grows.orderly ho)
    have hpairs : (ids.map fun ownerId => (ownerType, ownerId)).Nodup :=
      hnodup.map fun _ _ heq => (Prod.mk.inj heq).2
    by_cases hs : swept.outcome = .stopped
    · obtain ⟨hmono, hbehind, hwhy⟩ := hstopped hs
      rw [if_pos hs, hnone] at hresume
      have hsame := hstop (hwhy.imp_right fun hp => by simpa using hp)
      refine ⟨_, hsame.trans hchecked, hpairs, ?_, ?_⟩
      · intro owner howner
        obtain ⟨ownerId, hid, rfl⟩ := List.mem_map.mp howner
        exact ⟨List.mem_cons_self, hbeyond ownerId hid⟩
      · intro c hc
        rw [k.kept _ hresume] at hc
        cases hc
        refine ⟨List.mem_cons_self, hmono, fun owner howner hcovers => ?_⟩
        obtain ⟨ownerId, hid, rfl⟩ := List.mem_map.mp howner
        rcases hcovers _ rfl with hlt | ⟨-, hb⟩
        · exact lt_irrefl _ hlt
        · exact hbehind ownerId hid hb
    · rw [if_neg hs, hnone] at hresume
      obtain ⟨new, hnew, hnewNodup, hnewTypes, hcursor⟩ := k.fresh ho hresume
      refine ⟨ids.map (fun ownerId => (ownerType, ownerId)) ++ new, ?_, ?_, ?_, ?_⟩
      · rw [hnew, hchecked, List.append_assoc]
      · -- the owner types that follow are others
        refine List.nodup_append.mpr ⟨hpairs, hnewNodup, ?_⟩
        rintro owner howner _ hother rfl
        obtain ⟨ownerId, -, rfl⟩ := List.mem_map.mp howner
        exact lt_irrefl _ (hfirst _ (hnewTypes _ hother).1)
      · intro owner howner
        rcases List.mem_append.mp howner with howner | howner
        · obtain ⟨ownerId, hid, rfl⟩ := List.mem_map.mp howner
          exact ⟨List.mem_cons_self, hbeyond ownerId hid⟩
        · exact ⟨List.mem_cons_of_mem _ (hnewTypes owner howner).1, (hnewTypes owner howner).2⟩
      · intro c hc
        obtain ⟨htype, hmono, hbehind⟩ := hcursor c hc
        refine ⟨List.mem_cons_of_mem _ htype, hmono, fun owner howner hcovers => ?_⟩
        rcases List.mem_append.mp howner with howner | howner
        · obtain ⟨ownerId, hid, rfl⟩ := List.mem_map.mp howner
          rcases hcovers _ rfl with hlt | ⟨heq, -⟩
          · exact lt_asymm hlt (hfirst _ htype)
          · exact (hfirst _ htype).ne heq
        · exact hbehind owner howner hcovers

theorem walked_of_walk (hsorted : ownerTypes.Pairwise (· < ·)) :
    Walked env resumeFrom ownerTypes summary w
      (walk env options clock resumeFrom ownerTypes budget summary w).1
      (walk env options clock resumeFrom ownerTypes budget summary w).2 := by
  induction ownerTypes generalizing budget summary w with
  | nil => exact .nil
  | cons ownerType ownerTypes ih =>
    have htail := (List.pairwise_cons.mp hsorted).2
    rw [walk]
    split_ifs with hstop hclaimed
    · exact .stopped hsorted
    · have hswept := @typeSwept_of_sweepPages T O ownerType _ _ env options clock
        (startAfter resumeFrom ownerType) w budget 0 noTotals
      refine .next hsorted hswept rfl rfl (ih htail) fun hstops => ?_
      exact checked_walk_of_stopped (hstops.imp_right fun hpages =>
        (congrArg _ hpages).trans (Nat.sub_self budget))
    · exact .unclaimed (Bool.eq_false_iff.mpr hclaimed) (ih htail)

end Walk

section Pending

variable {ownerTypes : List T} {start : Option T}

omit [LinearOrder O]

theorem pairwise_pendingOwnerTypes (h : ownerTypes.Pairwise (· < ·)) :
    (pendingOwnerTypes ownerTypes start).1.Pairwise (· < ·) := by
  unfold pendingOwnerTypes
  split
  · exact h
  · split
    · exact h
    · exact h.sublist (List.dropWhile_sublist _)

theorem mem_pendingOwnerTypes (h : ownerType ∈ ownerTypes) (hstart : ∀ t ∈ start, t ≤ ownerType) :
    ownerType ∈ (pendingOwnerTypes ownerTypes start).1 := by
  unfold pendingOwnerTypes
  split
  · exact h
  · rename_i «from»
    split
    · exact h
    · -- only types before the cursor are dropped
      rw [← @List.takeWhile_append_dropWhile T (fun t => decide (t < «from»)) ownerTypes] at h
      rcases List.mem_append.mp h with h | h
      · have hlt : ownerType < «from» := by simpa using List.mem_takeWhile_imp h
        exact absurd (hstart _ rfl) hlt.not_ge
      · exact h

theorem le_of_mem_pendingOwnerTypes (h : ownerTypes.Pairwise (· < ·))
    (hover : (pendingOwnerTypes ownerTypes start).2 = false)
    (hin : ownerType ∈ (pendingOwnerTypes ownerTypes start).1) : ∀ t ∈ start, t ≤ ownerType := by
  unfold pendingOwnerTypes at hover hin
  rintro «from» rfl
  dsimp only at hover hin
  split at hin
  · rename_i hnil
    rw [hnil] at hover
    cases hover
  · rename_i pending hne
    have hsorted : (ownerTypes.dropWhile fun t => decide (t < «from»)).Pairwise (· < ·) :=
      h.sublist (List.dropWhile_sublist _)
    cases hdrop : ownerTypes.dropWhile fun t => decide (t < «from») with
    | nil => exact absurd hdrop hne
    | cons first rest =>
      have hfirst : «from» ≤ first := by
        have hhead := @List.head_dropWhile_not T (fun t => decide (t < «from»)) ownerTypes
          (by rw [hdrop]; nofun)
        simpa [hdrop] using hhead
      rw [hdrop] at hin hsorted
      rcases List.mem_cons.mp hin with rfl | hin
      · exact hfirst
      · exact hfirst.trans ((List.pairwise_cons.mp hsorted).1 _ hin).le

end Pending

structure PassStep (env : Surroundings T O) (resumeFrom : Option (ReconciliationCursor T O))
    (w : World T O) (summary : ReconciliationSummary T O) (w' : World T O) : Prop where
  grows : Grows w w'
  covers : ∀ ownerType ownerId, Covers resumeFrom ownerType ownerId → Stays w' ownerType ownerId →
    Answers env ownerType → (ownerType, ownerId) ∈ w'.checked ∨
      ∃ c, summary.resumeFrom = some c ∧ Covers (some c) ownerType ownerId
  drained : summary.drained = true → summary.resumeFrom = none
  resumes : Orderly w' → summary.drained = false → summary.resumeFrom ≠ none
  fresh : Orderly w' → ∃ new : List (T × O), w'.checked = w.checked ++ new ∧ new.Nodup ∧
    (∀ owner ∈ new, Covers resumeFrom owner.1 owner.2) ∧
    ∀ c, summary.resumeFrom = some c →
      (∀ ownerType ownerId, Covers (some c) ownerType ownerId →
        Covers resumeFrom ownerType ownerId) ∧
      ∀ owner ∈ new, ¬ Covers (some c) owner.1 owner.2

section Pass

variable {resumeFrom : Option (ReconciliationCursor T O)} {w : World T O}

/-- An owner that is to come is beyond the bound of its type. -/
theorem Covers.beyond (h : Covers resumeFrom ownerType ownerId) :
    Beyond (startAfter resumeFrom ownerType) ownerId := by
  intro bound hbound
  obtain ⟨c, hc, hbound⟩ := Option.bind_eq_some_iff.mp hbound
  split_ifs at hbound with htype
  rcases h c hc with hlt | ⟨-, hb⟩
  · exact absurd htype.symm hlt.ne
  · exact hb bound hbound

/-- An owner beyond the bound of its type is to come, if its type is not before the cursor. -/
theorem covers_of_beyond (hle : ∀ t ∈ resumeFrom.map ReconciliationCursor.ownerType, t ≤ ownerType)
    (h : Beyond (startAfter resumeFrom ownerType) ownerId) :
    Covers resumeFrom ownerType ownerId := by
  intro c hc
  rcases (hle c.ownerType (Option.mem_map_of_mem _ hc)).lt_or_eq with hlt | heq
  · exact .inl hlt
  · refine .inr ⟨heq.symm, fun bound hbound => h bound ?_⟩
    rw [startAfter, Option.mem_def.mp hc, Option.bind_some, if_pos heq.symm]
    exact hbound

theorem passStep_of_reconcile :
    PassStep env resumeFrom w (reconcile env options resumeFrom w).1
      (reconcile env options resumeFrom w).2 := by
  let start := resumeFrom.map ReconciliationCursor.ownerType
  let found := findOwnerTypes env (readNow env w).2
  have hsorted : found.1.Pairwise (· < ·) := pairwise_lt_insertionSort_dedup _
  let w₁ : World T O :=
    if (pendingOwnerTypes found.1 start).2 then found.2.logged [.startedOver] else found.2
  have hw₁ : w₁.checked = w.checked ∧ w.log <+: w₁.log ∧
      w₁.readings = w.readings ++ [⟨none, found.2.jobs⟩] := by
    unfold w₁
    split_ifs
    · exact ⟨rfl, List.prefix_append _ _, rfl⟩
    · exact ⟨rfl, List.prefix_refl _, rfl⟩
  have hwalk := @walked_of_walk T O _ _ env options
    ⟨env.now (begun env w).tick, secondsBefore (env.now (begun env w).tick) options.settleSeconds,
      secondsBefore (env.now (begun env w).tick) options.quarantineGraceSeconds⟩ resumeFrom
    (pendingOwnerTypes found.1 start).1 ⟨noTotals, [], true, none⟩ w₁ options.maxPagesPerPass
    (pairwise_pendingOwnerTypes hsorted)
  -- the walk ends in the world of the pass
  have hover : Orderly (reconcile env options resumeFrom w).2 →
      (pendingOwnerTypes found.1 start).2 = false := by
    intro ho
    by_contra hover
    have hlogged : .startedOver ∈ w₁.log := by
      unfold w₁
      rw [if_pos (Bool.not_eq_false _ ▸ hover)]
      exact List.mem_append_right _ (List.mem_singleton.mpr rfl)
    exact absurd (ho _ (hwalk.grows.log.subset hlogged)) nofun
  refine ⟨?_, ?_, ?_, ?_, ?_⟩
  · refine Grows.trans ⟨hw₁.2.1, ?_, ?_⟩ hwalk.grows
    · exact hw₁.1 ▸ List.prefix_refl _
    · rw [hw₁.2.2]
      exact List.prefix_append _ _
  · intro ownerType ownerId hcovers hstays hanswers
    -- the type of the owner is among those that are found
    obtain ⟨job, hjob, htype, -, -⟩ := hwalk.grows.stays hstays ⟨none, found.2.jobs⟩
      (hw₁.2.2 ▸ List.mem_concat_self)
    have hfound : ownerType ∈ found.1 := by
      refine (List.mem_insertionSort _).mpr (List.mem_dedup.mpr ?_)
      exact List.mem_map.mpr ⟨job, hjob, htype⟩
    refine hwalk.covers nofun ownerType (mem_pendingOwnerTypes hfound fun t ht => ?_) ownerId
      hcovers.beyond hstays hanswers
    obtain ⟨c, hc, rfl⟩ := Option.map_eq_some_iff.mp ht
    rcases hcovers c hc with hlt | ⟨heq, -⟩
    · exact hlt.le
    · exact heq.ge
  · intro hdrained
    by_contra hne
    exact absurd (hdrained.symm.trans (hwalk.drained (fun h => absurd rfl h) hne)) nofun
  · exact fun ho hd => hwalk.resumes ho nofun hd
  · intro ho
    obtain ⟨new, hnew, hnodup, htypes, hcursor⟩ := hwalk.fresh ho rfl
    have hcovered : ∀ {ownerType : T} {ownerId : O},
        ownerType ∈ (pendingOwnerTypes found.1 start).1 →
        Beyond (startAfter resumeFrom ownerType) ownerId → Covers resumeFrom ownerType ownerId :=
      fun hin hb => covers_of_beyond (le_of_mem_pendingOwnerTypes hsorted (hover ho) hin) hb
    refine ⟨new, hnew.trans (by rw [hw₁.1]), hnodup,
      fun owner howner => hcovered (htypes owner howner).1 (htypes owner howner).2,
      fun c hc => ?_⟩
    obtain ⟨hin, hmono, hbehind⟩ := hcursor c hc
    refine ⟨fun ownerType ownerId hcovers => ?_, hbehind⟩
    have hle := le_of_mem_pendingOwnerTypes hsorted (hover ho) hin
    rcases hcovers c rfl with hlt | ⟨rfl, hb⟩
    · -- a type after that of the new cursor is after that of the old one
      intro old hold
      exact .inl ((hle old.ownerType (Option.mem_map_of_mem _ hold)).trans_lt hlt)
    · exact hcovered hin (hmono ownerId hb)

end Pass

/-! ## A chain of passes -/

section Chain

variable {jobs : List (OwnedJob T O)} {n : ℕ}

theorem passStep_passes :
    PassStep env (passes env options jobs n).resumeFrom (passes env options jobs n).world
      (reconcile env options (passes env options jobs n).resumeFrom
        (passes env options jobs n).world).1 (passes env options jobs (n + 1)).world :=
  passStep_of_reconcile

theorem checked_or_covers (hstays : Stays (passes env options jobs n).world ownerType ownerId)
    (hanswers : Answers env ownerType) :
    (ownerType, ownerId) ∈ (passes env options jobs n).world.checked ∨
      Covers (passes env options jobs n).resumeFrom ownerType ownerId := by
  induction n with
  | zero => exact .inr nofun
  | succ n ih =>
    have hpass := @passStep_passes T O _ _ env options jobs n
    rcases ih (hpass.grows.stays hstays) with hin | hcovers
    · exact .inl (hpass.grows.checked.subset hin)
    · refine (hpass.covers ownerType ownerId hcovers hstays hanswers).imp_right ?_
      rintro ⟨c, hc, hcovers⟩
      rw [← hc] at hcovers
      exact hcovers

/-- **Every owner that stays is checked** once a pass reports that it has drained. -/
theorem checked_of_passes (hdrained : (passes env options jobs n).drained = true)
    (hstays : Stays (passes env options jobs n).world ownerType ownerId)
    (hanswers : Answers env ownerType) :
    (ownerType, ownerId) ∈ (passes env options jobs n).world.checked := by
  cases n with
  | zero => cases hdrained
  | succ n =>
    have hpass := @passStep_passes T O _ _ env options jobs n
    rcases checked_or_covers (hpass.grows.stays hstays) hanswers with hin | hcovers
    · exact hpass.grows.checked.subset hin
    · rcases hpass.covers ownerType ownerId hcovers hstays hanswers with hin | ⟨c, hc, -⟩
      · exact hin
      · rw [hpass.drained hdrained] at hc
        cases hc

/-- **No owner is checked twice** before a pass has drained, when nothing has made a pass go
back. -/
theorem nodup_checked_passes (horderly : Orderly (passes env options jobs n).world)
    (hfirst : ∀ k < n, (passes env options jobs k).drained = false) :
    (passes env options jobs n).world.checked.Nodup ∧
      ((passes env options jobs n).drained = false →
        ∀ owner ∈ (passes env options jobs n).world.checked,
          ¬ Covers (passes env options jobs n).resumeFrom owner.1 owner.2) := by
  induction n with
  | zero => exact ⟨List.nodup_nil, nofun⟩
  | succ n ih =>
    have hpass := @passStep_passes T O _ _ env options jobs n
    obtain ⟨hnodup, hbehind⟩ :=
      ih (hpass.grows.orderly horderly) fun k hk => hfirst k (hk.trans (Nat.lt_succ_self n))
    have hbehind := hbehind (hfirst n (Nat.lt_succ_self n))
    obtain ⟨new, hnew, hnewNodup, hcovered, hcursor⟩ := hpass.fresh horderly
    rw [hnew]
    constructor
    · refine List.nodup_append.mpr ⟨hnodup, hnewNodup, ?_⟩
      rintro owner hold _ hown rfl
      exact hbehind owner hold (hcovered owner hown)
    · intro hdrained owner howner hcovers
      obtain ⟨c, hc⟩ := Option.ne_none_iff_exists'.mp (hpass.resumes horderly hdrained)
      obtain ⟨hmono, hbehindNew⟩ := hcursor c hc
      have hcovers : Covers (some c) owner.1 owner.2 := hc ▸ hcovers
      rcases List.mem_append.mp howner with hold | hown
      · exact hbehind owner hold (hmono _ _ hcovers)
      · exact hbehindNew owner hown hcovers

end Chain

end N8n.Scheduler.Reconciliation
