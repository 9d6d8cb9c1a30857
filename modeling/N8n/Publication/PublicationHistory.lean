import N8n.Publication.WorkflowPublicationOutbox

/-!
# Histories of the publication outbox

What holds after any run of statements: no publication is lost, and the records of a workflow are
claimed in the order of their ids.

## Main definitions

* `claims`: the records claimed along a run
* `Inv`: what the statements keep of the outbox and the claims so far

## Main results

* `pending_or_claimed`: the version enqueued last is pending, or was claimed since
* `outbox_run`: at most one record per workflow and status in flight, no lost publication, and no
  return to an older record
-/

namespace N8n.Publication

variable {databaseType : DatabaseType} {s t : State} {e : Event} {es : List Event}

/-- The records that the statements of a run claim, in order. -/
def claims (es : List Event) : List Record := es.filterMap Event.claimed

/-! ## No publication is lost -/

/-- The version enqueued last is pending, or was claimed since. -/
theorem pending_or_claimed {w v : String} {before after : List Event} {enqueued : Event}
    (h : (outbox databaseType).Run .initial (before ++ enqueued :: after) t)
    (hv : enqueued.enqueued w = some v) (hlast : ∀ e ∈ after, e.enqueued w = none) :
    HasPending t w v ∨ ∃ e ∈ after, e.Claims w v := by
  induction after using List.reverseRecOn generalizing t with
  | nil =>
    obtain ⟨u, -, hstep⟩ := h.exists_last
    exact .inl (hasPending_enqueue hstep hv)
  | append_singleton after e ih =>
    rw [← List.cons_append, ← List.append_assoc] at h
    obtain ⟨u, hrun, hstep⟩ := h.exists_last
    have hbefore : ∀ e ∈ after, e.enqueued w = none :=
      fun e he => hlast e (List.mem_append_left _ he)
    rcases ih hrun hbefore with hp | ⟨e', he', hclaims⟩
    · rcases pending_next hstep hp (hlast e (by simp)) with hp | hclaims
      · exact .inl hp
      · exact .inr ⟨e, by simp, hclaims⟩
    · exact .inr ⟨e', List.mem_append_left _ he', hclaims⟩

/-! ## Records are claimed in order -/

/-- What the statements keep of the outbox and the claims so far. -/
structure Inv (es : List Event) (s : State) : Prop where
  /-- Ids are assigned increasingly. -/
  id_le : ∀ r ∈ s.outbox.rows, r.id ≤ s.lastId
  /-- What was claimed has an id at most that of any record of its workflow that is in flight. -/
  claimed_le : ∀ c ∈ claims es, ∀ r ∈ s.outbox.rows, r.isInFlight = true →
    r.workflowId = c.workflowId → c.id ≤ r.id
  claimed_le_last : ∀ c ∈ claims es, c.id ≤ s.lastId
  /-- A record in progress was claimed. -/
  inProgress : ∀ r ∈ s.outbox.rows, r.status = .inProgress →
    ∃ c ∈ claims es, c.id = r.id ∧ c.workflowId = r.workflowId
  ordered : (claims es).Pairwise fun c c' => c.workflowId = c'.workflowId → c.id ≤ c'.id

theorem Inv.initial : Inv [] .initial := by
  constructor <;> simp [claims, State.initial, Table.empty]

theorem mem_claims_concat {c : Record} :
    c ∈ claims (es ++ [e]) ↔ c ∈ claims es ∨ e.claimed = some c := by
  simp [claims]

/-- A record that is claimed is not older than a record of its workflow that was claimed before. -/
theorem Inv.le_claimed {c c' : Record} (hs : Inv es s) (h : s.next databaseType e = some t)
    (hc : e.claimed = some c) (hc' : c' ∈ claims es) (hw : c'.workflowId = c.workflowId) :
    c'.id ≤ c.id := by
  obtain ⟨r, hr, hid, hrw, hflight, -⟩ := claimed_next h hc
  rw [← hid]
  exact hs.claimed_le c' hc' r hr hflight (hrw.trans hw.symm)

/-- A record that is claimed is not newer than a record of its workflow in flight. -/
theorem Inv.claimed_le_inFlight {c r' : Record} (hs : Inv es s)
    (h : s.next databaseType e = some t) (hc : e.claimed = some c) (hr' : r' ∈ s.outbox.rows)
    (hflight' : r'.isInFlight = true) (hw' : r'.workflowId = c.workflowId) : c.id ≤ r'.id := by
  obtain ⟨r, hr, hid, hrw, hflight, hcase⟩ := claimed_next h hc
  have hww : r.workflowId = r'.workflowId := hrw.trans hw'.symm
  rw [← hid]
  rcases hcase with hprogress | hnone
  · -- a lease that has expired: the record was claimed before
    obtain ⟨c', hc', hid', hw''⟩ := hs.inProgress r hr hprogress
    rw [← hid']
    exact hs.claimed_le c' hc' r' hr' hflight' (hww.symm.trans hw''.symm)
  · -- neither of the two is in progress, and only one of them can be pending
    have hpending : ∀ q ∈ s.outbox.rows, q.isInFlight = true → q.workflowId = r.workflowId →
        q.status = .pending := by
      intro q hq hqf hqw
      have hne := hnone q hq hqw
      unfold Record.isInFlight at hqf
      cases hqs : q.status <;>
        simp_all [WorkflowPublicationOutboxStatus.isInFlight]
    have hsame : r = r' := Table.eq_of_clash hr hr' (.inr ⟨hflight, hww, by
      rw [hpending r hr hflight rfl, hpending r' hr' hflight' hww.symm]⟩)
    rw [hsame]

/-- **The step lemma.** -/
theorem Inv.next (hs : Inv es s) (h : s.next databaseType e = some t) : Inv (es ++ [e]) t where
  id_le q hq := by
    rcases origin_next h hq with ⟨r, hr, hid, -⟩ | ⟨-, hbelow, -⟩
    · rw [← hid]
      exact (hs.id_le r hr).trans (lastId_next h)
    · exact hbelow
  claimed_le c hc q hq hflight hw := by
    rcases mem_claims_concat.mp hc with hc | hc
    · rcases origin_next h hq with ⟨r, hr, hid, hrw, hrf, -⟩ | ⟨habove, -, -⟩
      · rw [← hid]
        exact hs.claimed_le c hc r hr (hrf hflight) (hrw.trans hw)
      · exact (hs.claimed_le_last c hc).trans habove.le
    · rcases origin_next h hq with ⟨r, hr, hid, hrw, hrf, -⟩ | ⟨habove, -, -⟩
      · rw [← hid]
        exact hs.claimed_le_inFlight h hc hr (hrf hflight) (hrw.trans hw)
      · obtain ⟨r, hr, hid, -⟩ := claimed_next h hc
        rw [← hid]
        exact (hs.id_le r hr).trans habove.le
  claimed_le_last c hc := by
    rcases mem_claims_concat.mp hc with hc | hc
    · exact (hs.claimed_le_last c hc).trans (lastId_next h)
    · obtain ⟨r, hr, hid, -⟩ := claimed_next h hc
      rw [← hid]
      exact (hs.id_le r hr).trans (lastId_next h)
  inProgress q hq hprogress := by
    rcases origin_next h hq with ⟨r, hr, hid, hw, -, hor⟩ | ⟨-, -, hpending⟩
    · rcases hor hprogress with hr' | ⟨c, hc, hcid, hcw⟩
      · obtain ⟨c, hc, hcid, hcw⟩ := hs.inProgress r hr hr'
        exact ⟨c, mem_claims_concat.mpr (.inl hc), hcid.trans hid, hcw.trans hw⟩
      · exact ⟨c, mem_claims_concat.mpr (.inr hc), hcid, hcw⟩
    · rw [hpending] at hprogress
      cases hprogress
  ordered := by
    unfold claims
    rw [List.filterMap_append, List.pairwise_append]
    refine ⟨hs.ordered, ?_, ?_⟩
    · cases hc : e.claimed <;> simp [hc]
    · intro c' hc' c hc hw
      obtain ⟨e', he', hclaimed⟩ := List.mem_filterMap.mp hc
      rw [List.mem_singleton.mp he'] at hclaimed
      exact hs.le_claimed h hclaimed hc' hw

theorem Inv.run (h : (outbox databaseType).Run .initial es t) : Inv es t :=
  h.history_invariant .initial fun hs h => hs.next h

/-! ## Statements that are not refused -/

/-! ## Main result -/

/-- **No publication is lost and none goes back.** After any run of statements of any number of
processes a workflow has at most one pending record and at most one in progress, the version that
was enqueued last for it is in flight or was claimed since, and a record was never claimed after a
newer one of its workflow. -/
theorem outbox_run (h : (outbox databaseType).Run .initial es t) :
    (∀ w status, (status = .pending ∨ status = .inProgress) →
      (t.outbox.rows.filter fun r => r.workflowId = w ∧ r.status = status).length ≤ 1) ∧
    (∀ before enqueued after w v, es = before ++ enqueued :: after →
      Event.enqueued w enqueued = some v → (∀ e ∈ after, e.enqueued w = none) →
      (∃ r ∈ t.outbox.rows, r.workflowId = w ∧ r.publishedVersionId = v ∧
        (r.status = .pending ∨ r.status = .inProgress)) ∨
      ∃ e ∈ after, ∃ c, e.claimed = some c ∧ c.workflowId = w ∧ c.publishedVersionId = v) ∧
    (claims es).Pairwise fun c c' => c.workflowId = c'.workflowId → c.id ≤ c'.id := by
  refine ⟨?_, ?_, (Inv.run h).ordered⟩
  · intro w status hstatus
    refine Table.length_filter_le_one ?_
    intro r r' hr hr'
    obtain ⟨hw, hs⟩ : r.workflowId = w ∧ r.status = status := by simpa using hr
    obtain ⟨hw', hs'⟩ : r'.workflowId = w ∧ r'.status = status := by simpa using hr'
    refine .inr ⟨?_, hw.trans hw'.symm, hs.trans hs'.symm⟩
    rcases hstatus with rfl | rfl <;> rw [Record.isInFlight, hs] <;> rfl
  · rintro before enqueued after w v rfl hv hlast
    rcases pending_or_claimed h hv hlast with ⟨r, hr, hw, hs, hrv⟩ | hclaims
    · exact .inl ⟨r, hr, hw, hrv, .inl hs⟩
    · exact .inr hclaims

/-- A consumer returns a record that a newer one has superseded: the older one is deleted. -/
def supersededReturn : List Event :=
  [.enqueue 1 "w" "v1" .publish 0,
    .claim 120 10 [] (some ⟨1, "w", "v1", .inProgress, .publish, none, 10⟩),
    .enqueue 2 "w" "v2" .publish 20,
    .returnToPending 1 30,
    .deleteSuperseded 1,
    .claim 120 40 [] (some ⟨2, "w", "v2", .inProgress, .publish, none, 40⟩)]

theorem outbox_run_supersededReturn :
    (claims supersededReturn).map Record.id = [1, 2] ∧
      (claims supersededReturn).Pairwise fun c c' => c.workflowId = c'.workflowId → c.id ≤ c'.id :=
  ⟨rfl, (outbox_run (Transition.System.run_of_follow (S := outbox .postgresdb) id
    (Option.some_get (by decide)).symm)).2.2⟩

end N8n.Publication
