import N8n.Insights.InsightsCollection

/-!
# What becomes of the insights

An insight that was collected is inserted once, or is in the buffer, in a flush in progress, or was
dropped for want of a project. What a failed flush puts back after the last flush has started stays
in the buffer when shutdown returns.

## Main definitions

* `everything`: the insights that were inserted or dropped, or are still held
* `Attributed`: what a flush knows of the owners of its workflows
* `Slip`: a flush that fails during shutdown, and is not the one that shutdown has started

## Main results

* `Conserved.next`, `Attributed.run`: nothing is lost, repeated, or dropped without reason
* `Timed.next`: a buffer without a flush has a timer
* `collection_run`: these along every run, and an empty buffer after a shutdown without a slip
* `not_emptied`: a flush that fails while shutdown waits for it
-/

namespace N8n.Insights

open InsightsCollection

namespace InsightsCollection

variable {flushBatchSize : ℕ} {s t : InsightsCollection} {flush flush' : Flush} {position : ℕ}

/-! ## Starting a flush -/

theorem flushEvents_cases (s : InsightsCollection) :
    (s.isInitialized = false ∧ s.flushEvents = s) ∨
    (s.isInitialized = true ∧ s.bufferedInsights = [] ∧
      s.flushEvents = { s with flushInsightsRawBufferTimer := true }) ∨
    (s.isInitialized = true ∧ s.bufferedInsights ≠ [] ∧
      s.flushEvents = { s with
        flushInsightsRawBufferTimer := false
        bufferedInsights := []
        flushesInProgress := s.flushesInProgress ++ [⟨s.flushes, s.bufferedInsights, .finding, []⟩]
        flushes := s.flushes + 1 }) := by
  unfold flushEvents
  by_cases hinit : s.isInitialized = false
  · exact .inl ⟨hinit, if_pos hinit⟩
  rw [if_neg hinit]
  have hinit : s.isInitialized = true := by simpa using hinit
  by_cases hbuffer : s.bufferedInsights = []
  · refine .inr (.inl ⟨hinit, hbuffer, ?_⟩)
    rw [if_pos hbuffer, scheduleFlushing, if_pos hinit]
  · refine .inr (.inr ⟨hinit, hbuffer, ?_⟩)
    rw [if_neg hbuffer]
    rfl

theorem bufferedInsights_flushEvents (h : s.isInitialized = true) :
    s.flushEvents.bufferedInsights = [] := by
  rcases s.flushEvents_cases with ⟨hinit, -⟩ | ⟨-, hbuffer, heq⟩ | ⟨-, -, heq⟩
  · rw [h] at hinit
    cases hinit
  · rw [heq]
    exact hbuffer
  · rw [heq]

@[simp] theorem flushEvents_isInitialized : s.flushEvents.isInitialized = s.isInitialized := by
  rcases s.flushEvents_cases with ⟨-, heq⟩ | ⟨-, -, heq⟩ | ⟨-, -, heq⟩ <;> rw [heq]

@[simp] theorem flushEvents_shutdown : s.flushEvents.shutdown = s.shutdown := by
  rcases s.flushEvents_cases with ⟨-, heq⟩ | ⟨-, -, heq⟩ | ⟨-, -, heq⟩ <;> rw [heq]

@[simp] theorem flushEvents_isAsynchronouslySavingInsights :
    s.flushEvents.isAsynchronouslySavingInsights = s.isAsynchronouslySavingInsights := by
  rcases s.flushEvents_cases with ⟨-, heq⟩ | ⟨-, -, heq⟩ | ⟨-, -, heq⟩ <;> rw [heq]

@[simp] theorem flushEvents_collected : s.flushEvents.collected = s.collected := by
  rcases s.flushEvents_cases with ⟨-, heq⟩ | ⟨-, -, heq⟩ | ⟨-, -, heq⟩ <;> rw [heq]

/-- What a finished workflow does: nothing, or its insights are collected and the buffer is flushed
or not. -/
theorem handleWorkflowExecuteAfter_cases (s : InsightsCollection) (flushBatchSize : ℕ)
    (ctx : WorkflowExecuteAfterContext) (timestamp : ℕ) :
    s.handleWorkflowExecuteAfter flushBatchSize ctx timestamp = s ∨
    s.isInitialized = true ∧
      ((s.isAsynchronouslySavingInsights = false ∧
        s.handleWorkflowExecuteAfter flushBatchSize ctx timestamp =
          { (s.collect (s.newInsights ctx timestamp)).flushEvents with
            handlers := s.handlers ++ [s.flushes] }) ∨
      (s.isAsynchronouslySavingInsights = true ∧
        s.handleWorkflowExecuteAfter flushBatchSize ctx timestamp =
          (s.collect (s.newInsights ctx timestamp)).flushIfFull flushBatchSize)) := by
  unfold handleWorkflowExecuteAfter
  by_cases hinit : s.isInitialized = false
  · exact .inl (if_pos hinit)
  rw [if_neg hinit]
  by_cases hskip : shouldSkipStatus ctx.status ∨ shouldSkipMode ctx.mode
  · exact .inl (if_pos hskip)
  rw [if_neg hskip]
  by_cases hsource : ctx.source = some .instanceAi
  · exact .inl (if_pos hsource)
  rw [if_neg hsource]
  refine .inr ⟨by simpa using hinit, ?_⟩
  by_cases hasync : s.isAsynchronouslySavingInsights = false
  · exact .inl ⟨hasync, if_pos hasync⟩
  · exact .inr ⟨by simpa using hasync, if_neg hasync⟩

/-! ## Nothing is lost or repeated -/

/-- The insights that were inserted or dropped, are in the buffer, or in a flush in progress. -/
def everything (s : InsightsCollection) : List BufferedInsight :=
  s.inserted.map Prod.fst ++ s.dropped.map Prod.fst ++ s.bufferedInsights ++
    s.flushesInProgress.flatMap (·.events)

/-- Every insight that was collected is in one of these places, once. -/
structure Conserved (s : InsightsCollection) : Prop where
  perm : s.everything.Perm s.collected
  ids : s.collected.map (·.id) = List.range s.collected.length

theorem Conserved.nodup (h : Conserved s) : s.everything.Nodup := by
  refine h.perm.nodup_iff.mpr (List.Nodup.of_map (·.id) ?_)
  rw [h.ids]
  exact List.nodup_range

theorem Conserved.of_perm (h : Conserved s) (hcollected : t.collected = s.collected)
    (hperm : t.everything.Perm s.everything) : Conserved t where
  perm := by
    rw [hcollected]
    exact hperm.trans h.perm
  ids := by
    rw [hcollected]
    exact h.ids

theorem Conserved.flushEvents (h : Conserved s) : Conserved s.flushEvents := by
  refine h.of_perm flushEvents_collected ?_
  rcases s.flushEvents_cases with ⟨-, heq⟩ | ⟨-, -, heq⟩ | ⟨-, -, heq⟩
  · rw [heq]
  · rw [heq]
    exact List.Perm.refl _
  · rw [heq]
    simp only [everything, List.append_nil, List.flatMap_append, List.flatMap_singleton,
      List.append_assoc]
    exact ((List.perm_append_comm).append_left _).append_left _

theorem Conserved.collect (h : Conserved s) {insights : List BufferedInsight}
    (hids : insights.map (·.id) = List.range' s.collected.length insights.length) :
    Conserved (s.collect insights) where
  perm := by
    have hswap : (s.collect insights).everything.Perm (s.everything ++ insights) := by
      simp only [everything, InsightsCollection.collect, List.append_assoc]
      exact ((List.perm_append_comm.append_left _).append_left _).append_left _
    exact hswap.trans (h.perm.append_right insights)
  ids := by
    show (s.collected ++ insights).map (·.id) = List.range (s.collected ++ insights).length
    rw [List.map_append, h.ids, hids, List.length_append, List.range_eq_range',
      List.range_eq_range', ← List.range'_append_1, Nat.zero_add]

theorem newInsights_ids (s : InsightsCollection) (ctx : WorkflowExecuteAfterContext)
    (timestamp : ℕ) : (s.newInsights ctx timestamp).map (·.id) =
      List.range' s.collected.length (s.newInsights ctx timestamp).length := by
  unfold newInsights
  apply List.ext_getElem
  · simp
  · intro i _ _
    simp

/-- The events of one flush, and those of the others. -/
theorem flatMap_eraseIdx (h : s.flushesInProgress[position]? = some flush) :
    (s.flushesInProgress.flatMap (·.events)).Perm
      (flush.events ++ (s.flushesInProgress.eraseIdx position).flatMap (·.events)) := by
  obtain ⟨hlt, hget⟩ := List.getElem?_eq_some_iff.mp h
  have hperm := (List.getElem_cons_eraseIdx_perm hlt).symm.flatMap_right (·.events)
  rwa [hget, List.flatMap_cons] at hperm

theorem settle_failed (s : InsightsCollection) (position : ℕ) (flush : Flush) :
    s.settle position flush true = { s with
      flushInsightsRawBufferTimer := s.isInitialized || s.flushInsightsRawBufferTimer
      bufferedInsights := s.bufferedInsights ++ flush.events
      finalFailed := s.finalFailed || s.shutdown.any fun shutdown => shutdown.final = some flush.id
      flushesInProgress := s.flushesInProgress.eraseIdx position } := by
  unfold settle scheduleFlushing
  cases hinit : s.isInitialized <;> simp

theorem settle_saved (s : InsightsCollection) (position : ℕ) (flush : Flush) :
    s.settle position flush false = { s with
      flushInsightsRawBufferTimer := s.isInitialized || s.flushInsightsRawBufferTimer
      flushesInProgress := s.flushesInProgress.eraseIdx position } := by
  unfold settle scheduleFlushing
  cases hinit : s.isInitialized <;> simp [hinit]

section Conserved

variable (h : Conserved s) (hflush : s.flushesInProgress[position]? = some flush)
include h hflush

theorem Conserved.goOn (hevents : flush'.events = flush.events) :
    Conserved (s.goOn position flush') := by
  refine h.of_perm rfl (List.Perm.of_eq ?_)
  obtain ⟨hlt, hget⟩ := List.getElem?_eq_some_iff.mp hflush
  have hmap : (s.flushesInProgress.set position flush').map (·.events) =
      s.flushesInProgress.map (·.events) := by
    apply List.ext_getElem?
    intro i
    rw [List.getElem?_map, List.getElem?_map, List.getElem?_set]
    split_ifs with hi
    · rw [← hi, hflush, Option.map_some, Option.map_some, hevents]
    · rfl
  simp only [everything, InsightsCollection.goOn, List.flatMap_def, hmap]

theorem Conserved.putBack : Conserved (s.settle position flush true) := by
  rw [settle_failed]
  refine h.of_perm rfl ?_
  have hperm := flatMap_eraseIdx hflush
  simp only [everything, List.append_assoc]
  refine List.Perm.append_left _ (List.Perm.append_left _ (List.Perm.append_left _ ?_))
  exact hperm.symm

/-- The events of a flush are inserted or dropped. -/
theorem Conserved.complete {events : List (BufferedInsight × InsightsRaw)}
    {p : BufferedInsight → Bool} (hevents : events.map Prod.fst = flush.events.filter p)
    (heq : flush'.events = flush.events) : Conserved (s.complete position flush' events) := by
  rw [InsightsCollection.complete, settle_saved]
  refine h.of_perm rfl ?_
  have hperm := flatMap_eraseIdx hflush
  have hdropped : flush'.events.filter (fun event => event ∉ flush.events.filter p) =
      flush.events.filter fun event => !p event := by
    rw [heq]
    apply List.filter_congr
    intro event hevent
    simp [hevent]
  have hsplit := List.filter_append_perm p flush.events
  rw [List.perm_iff_count]
  intro event
  have hflat := hperm.count_eq event
  have hboth := hsplit.count_eq event
  simp only [List.count_append] at hflat hboth
  simp only [everything, List.map_append, List.map_map, hevents, hdropped, List.count_append]
  have hid : (Prod.fst ∘ fun event => (event, flush')) = (id : BufferedInsight → BufferedInsight) :=
    rfl
  rw [hid, List.map_id]
  omega

end Conserved

end InsightsCollection

/-! ## What is dropped -/

section Owners

variable {db db' : Database} {cache cache' : OrderedMap String InsightsMetadata} {flush : Flush}
  {workflowId : String} {workflowIds : List String} {rows : List MetadataToUpsert}

def Linked (db : Database) (workflowId : String) : Prop :=
  ∃ m ∈ db.metadata, m.workflowId = some workflowId

/-- What a flush knows of a workflow that is not in the cache and had an owner all along. -/
def Saving.Knows (db : Database) (workflowId : String) : Saving → Prop
  | .finding => True
  | .found sharedWorkflows => workflowId ∈ sharedWorkflows.map Prod.fst
  | .upserting metadataToUpsert => workflowId ∈ metadataToUpsert.map (·.workflowId)
  | .reading metadataToUpsert =>
    workflowId ∈ metadataToUpsert.map (·.workflowId) ∧ Linked db workflowId
  | .read upsertMetadata => workflowId ∈ upsertMetadata.map Prod.fst
  | .inserting _ => False

/-- Each workflow of a flush was without an owner at some moment, or is in the cache, or known. An
event without a row is one of a workflow without an owner. -/
structure Attributed (cache : OrderedMap String InsightsMetadata) (db : Database) (flush : Flush) :
    Prop where
  known : ∀ event ∈ flush.events, event.workflowId ∈ flush.unshared ∨
    (cache.get? event.workflowId).isSome ∨ flush.saving.Knows db event.workflowId
  rows : ∀ events, flush.saving = .inserting events → ∃ p : BufferedInsight → Bool,
    events.map Prod.fst = flush.events.filter p ∧
      ∀ event ∈ flush.events, p event = false → event.workflowId ∈ flush.unshared

theorem mem_find (hmem : workflowId ∈ workflowIds) (h : (db.owners.get? workflowId).isSome) :
    workflowId ∈ (db.find workflowIds).map Prod.fst := by
  obtain ⟨project, hproject⟩ := Option.isSome_iff_exists.mp h
  refine List.mem_map.mpr ⟨(workflowId, project), List.mem_filter.mpr ⟨?_, ?_⟩, rfl⟩
  · exact OrderedMap.get?_eq_some.mp hproject
  · exact decide_eq_true hmem

theorem mem_findBy (hmem : workflowId ∈ workflowIds) (h : Linked db workflowId) :
    workflowId ∈ (db.findBy workflowIds).map Prod.fst := by
  obtain ⟨m, hm, hid⟩ := h
  refine List.mem_map.mpr ⟨(workflowId, m), List.mem_filterMap.mpr ⟨m, hm, ?_⟩, rfl⟩
  rw [hid, Option.bind_some, if_pos hmem]

theorem linked_upsertOne (row : MetadataToUpsert)
    (h : Linked db workflowId ∨ workflowId = row.workflowId) :
    Linked (db.upsertOne row) workflowId := by
  unfold Database.upsertOne
  split_ifs with hany
  · -- the row of the same workflow is kept, with other values
    have hlinked : Linked db workflowId := by
      rcases h with h | rfl
      · exact h
      · obtain ⟨m, hm, hid⟩ := List.any_eq_true.mp hany
        exact ⟨m, hm, of_decide_eq_true hid⟩
    obtain ⟨m, hm, hid⟩ := hlinked
    refine ⟨_, List.mem_map_of_mem hm, ?_⟩
    split_ifs <;> exact hid
  · rcases h with ⟨m, hm, hid⟩ | rfl
    · exact ⟨m, List.mem_append_left _ hm, hid⟩
    · exact ⟨_, List.mem_append_right _ (List.mem_singleton.mpr rfl), rfl⟩

theorem linked_upsert (h : Linked db workflowId ∨ workflowId ∈ rows.map (·.workflowId)) :
    Linked (db.upsert rows) workflowId := by
  induction rows generalizing db with
  | nil => exact h.resolve_right (List.not_mem_nil)
  | cons row rows ih =>
    apply ih
    rcases h with h | h
    · exact .inl (linked_upsertOne row (.inl h))
    · rcases List.mem_cons.mp h with heq | h
      · exact .inl (linked_upsertOne row (.inr heq))
      · exact .inr h

theorem linked_deleteWorkflow {deleted : String} (h : Linked db workflowId) :
    workflowId = deleted ∨ Linked (db.deleteWorkflow deleted) workflowId := by
  obtain ⟨m, hm, hid⟩ := h
  by_cases heq : workflowId = deleted
  · exact .inl heq
  · refine .inr ⟨_, List.mem_map_of_mem hm, ?_⟩
    have hne : m.workflowId ≠ some deleted := by
      rw [hid]
      exact fun h => heq (Option.some.inj h)
    rw [if_neg hne]
    exact hid

/-- The cache keeps its workflows, and gets those that were read. -/
theorem isSome_cache {upsertMetadata : List (String × InsightsMetadata)}
    (h : (cache.get? workflowId).isSome ∨ workflowId ∈ upsertMetadata.map Prod.fst) :
    ((upsertMetadata.foldl (fun cache m => cache.set m.1 m.2) cache).get? workflowId).isSome := by
  induction upsertMetadata generalizing cache with
  | nil => exact h.resolve_right List.not_mem_nil
  | cons m upsertMetadata ih =>
    apply ih
    by_cases heq : workflowId = m.1
    · refine .inl ?_
      rw [OrderedMap.get?_set, if_pos heq]
      rfl
    · rw [OrderedMap.get?_set_of_ne heq]
      refine h.imp_right fun h => ?_
      exact (List.mem_cons.mp h).resolve_left heq

theorem mem_metadataToUpsert {sharedWorkflows : List (String × Project)}
    (h : workflowId ∈ sharedWorkflows.map Prod.fst) : (cache.get? workflowId).isSome ∨
      workflowId ∈ (flush.metadataToUpsert cache sharedWorkflows).map (·.workflowId) := by
  cases hcache : cache.get? workflowId with
  | some m => exact .inl rfl
  | none =>
    right
    obtain ⟨⟨w, project⟩, hmem, rfl⟩ := List.mem_map.mp h
    refine List.mem_map.mpr ⟨⟨w, flush.workflowName w, project⟩,
      List.mem_filterMap.mpr ⟨(w, project), hmem, ?_⟩, rfl⟩
    dsimp only at hcache ⊢
    rw [hcache]
    exact if_pos rfl

theorem rows_fst (flush : Flush) (cache : OrderedMap String InsightsMetadata) :
    (flush.rows cache).map Prod.fst =
      flush.events.filter fun event => (cache.get? event.workflowId).isSome := by
  unfold Flush.rows
  induction flush.events with
  | nil => rfl
  | cons event events ih =>
    cases hcache : cache.get? event.workflowId with
    | none => simp [hcache, ih]
    | some m => simp [hcache, ih]

theorem Attributed.of_known (known : ∀ event ∈ flush.events, event.workflowId ∈ flush.unshared ∨
    (cache.get? event.workflowId).isSome ∨ flush.saving.Knows db event.workflowId)
    (hsaving : ∀ events, flush.saving ≠ .inserting events) : Attributed cache db flush where
  known
  rows events heq := absurd heq (hsaving events)

theorem Attributed.mono (h : Attributed cache db flush)
    (hcache : ∀ w, (cache.get? w).isSome → (cache'.get? w).isSome)
    (hdb : ∀ w, Linked db w → Linked db' w) : Attributed cache' db' flush where
  known event hevent := by
    refine (h.known event hevent).imp_right fun h => ?_
    refine h.imp (hcache _) fun h => ?_
    cases hsaving : flush.saving with
    | reading metadataToUpsert =>
      rw [hsaving] at h
      exact ⟨h.1, hdb _ h.2⟩
    | _ =>
      rw [hsaving] at h
      exact h
  rows := h.rows

theorem Attributed.deleteWorkflow (h : Attributed cache db flush) (deleted : String) :
    Attributed cache (db.deleteWorkflow deleted)
      { flush with unshared := flush.unshared ++ [deleted] } where
  known event hevent := by
    rcases h.known event hevent with hunshared | hcache | hknown
    · exact .inl (List.mem_append_left _ hunshared)
    · exact .inr (.inl hcache)
    · cases hsaving : flush.saving with
      | reading metadataToUpsert =>
        rw [hsaving] at hknown
        rcases @linked_deleteWorkflow db _ deleted hknown.2 with heq | hlinked
        · exact .inl (List.mem_append_right _ (List.mem_singleton.mpr heq))
        · exact .inr (.inr ⟨hknown.1, hlinked⟩)
      | _ =>
        rw [hsaving] at hknown
        exact .inr (.inr hknown)
  rows events hsaving := by
    obtain ⟨p, hp, hunshared⟩ := h.rows events hsaving
    exact ⟨p, hp, fun event hevent hfalse => List.mem_append_left _ (hunshared event hevent hfalse)⟩

end Owners

namespace InsightsCollection

variable {flushBatchSize : ℕ} {s t : InsightsCollection} {flush flush' : Flush} {position : ℕ}
  {e : Event} {failed : Bool}

/-- Every flush is attributed, and what was dropped had no owner at some moment of the flush. -/
structure Justified (s : InsightsCollection) : Prop where
  flushes : ∀ flush ∈ s.flushesInProgress, Attributed s.cachedMetadata s.database flush
  dropped : ∀ d ∈ s.dropped, d.1 ∈ d.2.events ∧ d.1.workflowId ∈ d.2.unshared

theorem Justified.flushEvents (h : Justified s) : Justified s.flushEvents := by
  rcases s.flushEvents_cases with ⟨-, heq⟩ | ⟨-, -, heq⟩ | ⟨-, -, heq⟩
  · rw [heq]
    exact h
  · rw [heq]
    exact ⟨h.flushes, h.dropped⟩
  · rw [heq]
    refine ⟨fun flush hflush => ?_, h.dropped⟩
    rcases List.mem_append.mp hflush with hold | hnew
    · exact h.flushes flush hold
    · obtain rfl := List.mem_singleton.mp hnew
      exact ⟨fun _ _ => .inr (.inr trivial), nofun⟩

theorem Justified.flushIfFull (h : Justified s) : Justified (s.flushIfFull flushBatchSize) := by
  unfold InsightsCollection.flushIfFull
  split_ifs
  · exact h.flushEvents
  · exact h

/-- A flush goes on, and the others find the cache and the table as they were, or grown. -/
theorem Justified.goOn (h : Justified s) (hdropped : t.dropped = s.dropped)
    (hflushes : t.flushesInProgress = s.flushesInProgress.set position flush')
    (hcache : ∀ w, (s.cachedMetadata.get? w).isSome → (t.cachedMetadata.get? w).isSome)
    (hdb : ∀ w, Linked s.database w → Linked t.database w)
    (hflush : Attributed t.cachedMetadata t.database flush') : Justified t where
  flushes f hf := by
    rw [hflushes] at hf
    rcases List.mem_or_eq_of_mem_set hf with hold | rfl
    · exact (h.flushes f hold).mono hcache hdb
    · exact hflush
  dropped := by
    rw [hdropped]
    exact h.dropped

theorem Justified.putBack (h : Justified s) : Justified (s.settle position flush true) := by
  rw [settle_failed]
  exact ⟨fun f hf => h.flushes f (List.mem_of_mem_eraseIdx hf), h.dropped⟩

/-- What a flush drops had no owner. -/
theorem Justified.complete (h : Justified s) {events : List (BufferedInsight × InsightsRaw)}
    {p : BufferedInsight → Bool} (hevents : events.map Prod.fst = flush.events.filter p)
    (hunshared : ∀ event ∈ flush.events, p event = false → event.workflowId ∈ flush.unshared) :
    Justified (s.complete position flush events) := by
  rw [InsightsCollection.complete, settle_saved]
  refine ⟨fun f hf => h.flushes f (List.mem_of_mem_eraseIdx hf), fun d hd => ?_⟩
  rcases List.mem_append.mp hd with hold | hnew
  · exact h.dropped d hold
  · obtain ⟨event, hevent, rfl⟩ := List.mem_map.mp hnew
    obtain ⟨hmem, hnot⟩ := List.mem_filter.mp hevent
    refine ⟨hmem, hunshared event hmem ?_⟩
    rw [hevents] at hnot
    simpa [hmem] using hnot

/-- What a step of a flush can do: it puts the events back, goes on, or saves what it has. -/
theorem advance_cases (hs : s.advance position flush failed = some t) :
    failed = true ∧ t = s.settle position flush true ∨
    failed = false ∧ ∃ database cachedMetadata,
      (∃ flush', t = { s with database, cachedMetadata }.goOn position flush') ∨
      ∃ events, t = { s with database, cachedMetadata }.complete position flush events := by
  unfold advance at hs
  cases failed with
  | true =>
    cases hsaving : flush.saving with
    | found _ | read _ =>
      rw [hsaving] at hs
      cases hs
    | finding | upserting _ | reading _ | inserting _ =>
      rw [hsaving] at hs
      exact .inl ⟨rfl, (Option.some.inj hs).symm⟩
  | false =>
    refine .inr ⟨rfl, ?_⟩
    cases hsaving : flush.saving with
    | finding | found _ | reading _ | upserting _ =>
      rw [hsaving] at hs
      exact ⟨_, _, .inl ⟨_, (Option.some.inj hs).symm⟩⟩
    | read upsertMetadata =>
      rw [hsaving] at hs
      dsimp only at hs
      split_ifs at hs
      · exact ⟨_, _, .inr ⟨_, (Option.some.inj hs).symm⟩⟩
      · exact ⟨_, _, .inl ⟨_, (Option.some.inj hs).symm⟩⟩
    | inserting events =>
      rw [hsaving] at hs
      exact ⟨_, _, .inr ⟨_, (Option.some.inj hs).symm⟩⟩

/-- **A step of a flush** keeps what is known, and loses and repeats nothing. -/
theorem advance_sound (hc : Conserved s) (hj : Justified s)
    (hflush : s.flushesInProgress[position]? = some flush)
    (hs : s.advance position flush failed = some t) : Conserved t ∧ Justified t := by
  have hattributed := hj.flushes flush (List.mem_of_getElem? hflush)
  cases failed with
  | true =>
    obtain ⟨-, rfl⟩ | ⟨hnot, -⟩ := advance_cases hs
    · exact ⟨hc.putBack hflush, hj.putBack⟩
    · cases hnot
  | false =>
    unfold advance at hs
    have hknown := hattributed.known
    cases hsaving : flush.saving with
    | finding =>
      rw [hsaving] at hs
      cases hs
      refine ⟨hc.goOn hflush rfl, hj.goOn rfl rfl (fun _ => id) (fun _ => id) ?_⟩
      refine .of_known ?_ (by rintro events ⟨⟩)
      intro event hevent
      have hid : event.workflowId ∈ flush.workflowIds := List.mem_map_of_mem hevent
      cases howner : (s.database.owners.get? event.workflowId).isSome with
      | true => exact .inr (.inr (mem_find hid howner))
      | false =>
        refine .inl (List.mem_filter.mpr ⟨hid, ?_⟩)
        rw [Option.isNone_iff_eq_none.mpr (by simpa using howner)]
    | found sharedWorkflows =>
      rw [hsaving] at hs hknown
      cases hs
      refine ⟨hc.goOn hflush rfl, hj.goOn rfl rfl (fun _ => id) (fun _ => id) ?_⟩
      refine .of_known ?_ (by rintro events ⟨⟩)
      intro event hevent
      rcases hknown event hevent with hunshared | hcache | hfound
      · exact .inl hunshared
      · exact .inr (.inl hcache)
      · exact .inr (mem_metadataToUpsert hfound)
    | upserting metadataToUpsert =>
      rw [hsaving] at hs hknown
      cases hs
      have hold : ∀ w, Linked s.database w → Linked (s.database.upsert metadataToUpsert) w :=
        fun w h => linked_upsert (.inl h)
      refine ⟨?_, hj.goOn rfl rfl (fun _ => id) hold (.of_known ?_ ?_)⟩
      · exact Conserved.goOn (s := { s with database := s.database.upsert metadataToUpsert })
          (hc.of_perm rfl (List.Perm.refl _)) hflush rfl
      · intro event hevent
        rcases hknown event hevent with hunshared | hcache | hrow
        · exact .inl hunshared
        · exact .inr (.inl hcache)
        · exact .inr (.inr ⟨hrow, linked_upsert (.inr hrow)⟩)
      · rintro events ⟨⟩
    | reading metadataToUpsert =>
      rw [hsaving] at hs hknown
      cases hs
      refine ⟨hc.goOn hflush rfl, hj.goOn rfl rfl (fun _ => id) (fun _ => id) ?_⟩
      refine .of_known ?_ (by rintro events ⟨⟩)
      intro event hevent
      rcases hknown event hevent with hunshared | hcache | hlinked
      · exact .inl hunshared
      · exact .inr (.inl hcache)
      · exact .inr (.inr (mem_findBy hlinked.1 hlinked.2))
    | read upsertMetadata =>
      rw [hsaving] at hs hknown
      dsimp only at hs
      -- what is neither in the cache nor read has no owner
      have hcached : ∀ event ∈ flush.events, event.workflowId ∈ flush.unshared ∨
          ((upsertMetadata.foldl (fun cache m => cache.set m.1 m.2) s.cachedMetadata).get?
            event.workflowId).isSome := by
        intro event hevent
        rcases hknown event hevent with hunshared | hcache | hread
        · exact .inl hunshared
        · exact .inr (isSome_cache (.inl hcache))
        · exact .inr (isSome_cache (.inr hread))
      have hrows := rows_fst flush
        (upsertMetadata.foldl (fun cache m => cache.set m.1 m.2) s.cachedMetadata)
      have hunshared : ∀ event ∈ flush.events,
          ((upsertMetadata.foldl (fun cache m => cache.set m.1 m.2) s.cachedMetadata).get?
            event.workflowId).isSome = false → event.workflowId ∈ flush.unshared := by
        intro event hevent hfalse
        refine (hcached event hevent).resolve_right fun hsome => ?_
        rw [hsome] at hfalse
        cases hfalse
      have hc' : Conserved { s with
          cachedMetadata := upsertMetadata.foldl (fun cache m => cache.set m.1 m.2)
            s.cachedMetadata } := hc.of_perm rfl (List.Perm.refl _)
      have hj' : Justified { s with
          cachedMetadata := upsertMetadata.foldl (fun cache m => cache.set m.1 m.2)
            s.cachedMetadata } :=
        ⟨fun f hf => (hj.flushes f hf).mono (fun w h => isSome_cache (.inl h)) fun _ => id,
          hj.dropped⟩
      split_ifs at hs with hempty
      · cases hs
        rw [hempty] at hrows
        exact ⟨hc'.complete hflush hrows rfl, hj'.complete hrows hunshared⟩
      · cases hs
        refine ⟨hc'.goOn hflush rfl, hj'.goOn rfl rfl (fun _ => id) (fun _ => id) ⟨?_, ?_⟩⟩
        · exact fun event hevent => (hcached event hevent).imp_right .inl
        · rintro events ⟨⟩
          exact ⟨_, hrows, hunshared⟩
    | inserting events =>
      obtain ⟨p, hevents, hunshared⟩ := hattributed.rows events hsaving
      rw [hsaving] at hs
      cases hs
      exact ⟨hc.complete hflush hevents rfl, hj.complete hevents hunshared⟩

theorem Conserved.flushIfFull (h : Conserved s) : Conserved (s.flushIfFull flushBatchSize) := by
  unfold InsightsCollection.flushIfFull
  split_ifs
  · exact h.flushEvents
  · exact h

/-- **The step lemma**: nothing is lost or repeated, or dropped without reason. -/
theorem Conserved.next (hc : Conserved s) (hj : Justified s)
    (hs : s.next flushBatchSize e = some t) : Conserved t ∧ Justified t := by
  cases e with
  | workflowFinished ctx timestamp =>
    cases hs
    have hcollect : Conserved (s.collect (s.newInsights ctx timestamp)) :=
      hc.collect (newInsights_ids s ctx timestamp)
    have hjustified : Justified (s.collect (s.newInsights ctx timestamp)) :=
      ⟨hj.flushes, hj.dropped⟩
    rcases s.handleWorkflowExecuteAfter_cases flushBatchSize ctx timestamp with
      heq | ⟨-, ⟨-, heq⟩ | ⟨-, heq⟩⟩
    · rw [heq]
      exact ⟨hc, hj⟩
    · rw [heq]
      exact ⟨hcollect.flushEvents.of_perm rfl (List.Perm.refl _),
        ⟨hjustified.flushEvents.flushes, hjustified.flushEvents.dropped⟩⟩
    · rw [heq]
      exact ⟨hcollect.flushIfFull, hjustified.flushIfFull⟩
  | timerFires =>
    simp only [next] at hs
    split_ifs at hs
    cases hs
    have hc' : Conserved s.cancelScheduledFlushing := hc.of_perm rfl (List.Perm.refl _)
    have hj' : Justified s.cancelScheduledFlushing := ⟨hj.flushes, hj.dropped⟩
    exact ⟨hc'.flushEvents, hj'.flushEvents⟩
  | flushAdvances position failed =>
    obtain ⟨flush, hflush, hs⟩ := Option.bind_eq_some_iff.mp hs
    exact advance_sound hc hj hflush hs
  | handlerResumes position =>
    obtain ⟨id, -, hs⟩ := Option.bind_eq_some_iff.mp hs
    split_ifs at hs
    cases hs
    have hc' : Conserved { s with handlers := s.handlers.eraseIdx position } :=
      hc.of_perm rfl (List.Perm.refl _)
    have hj' : Justified { s with handlers := s.handlers.eraseIdx position } :=
      ⟨hj.flushes, hj.dropped⟩
    exact ⟨hc'.flushIfFull, hj'.flushIfFull⟩
  | shutdown =>
    simp only [next] at hs
    split_ifs at hs
    cases hs
    have hc' : Conserved
        { s.cancelScheduledFlushing with isAsynchronouslySavingInsights := false } :=
      hc.of_perm rfl (List.Perm.refl _)
    have hj' : Justified
        { s.cancelScheduledFlushing with isAsynchronouslySavingInsights := false } :=
      ⟨hj.flushes, hj.dropped⟩
    exact ⟨hc'.flushEvents.of_perm rfl (List.Perm.refl _),
      ⟨hj'.flushEvents.flushes, hj'.flushEvents.dropped⟩⟩
  | shutdownReturns =>
    obtain ⟨shutdown, -, hs⟩ := Option.bind_eq_some_iff.mp hs
    split_ifs at hs
    cases hs
    exact ⟨hc.of_perm rfl (List.Perm.refl _), ⟨hj.flushes, hj.dropped⟩⟩
  | shared workflowId project =>
    cases hs
    exact ⟨hc.of_perm rfl (List.Perm.refl _), ⟨fun f hf => (hj.flushes f hf).mono (fun _ => id)
      fun _ => id, hj.dropped⟩⟩
  | workflowDeleted workflowId =>
    cases hs
    refine ⟨hc.of_perm rfl (List.Perm.of_eq ?_), ⟨fun f hf => ?_, hj.dropped⟩⟩
    · simp only [everything, deleteWorkflow, List.flatMap_map]
    · obtain ⟨flush, hflush, rfl⟩ := List.mem_map.mp hf
      exact (hj.flushes flush hflush).deleteWorkflow workflowId

/-! ## The timer -/

/-- While the service runs, the timer is armed or a flush is in progress. -/
def Timed (s : InsightsCollection) : Prop :=
  s.isInitialized = true → s.flushInsightsRawBufferTimer = true ∨ s.flushesInProgress ≠ []

theorem timed_flushEvents (s : InsightsCollection) : Timed s.flushEvents := by
  rcases s.flushEvents_cases with ⟨hinit, heq⟩ | ⟨-, -, heq⟩ | ⟨-, -, heq⟩
  · rw [heq]
    intro h
    rw [hinit] at h
    cases h
  · rw [heq]
    exact fun _ => .inl rfl
  · rw [heq]
    exact fun _ => .inr (List.append_ne_nil_of_right_ne_nil _ (List.cons_ne_nil _ _))

theorem Timed.flushIfFull (h : Timed s) : Timed (s.flushIfFull flushBatchSize) := by
  unfold InsightsCollection.flushIfFull
  split_ifs
  · exact timed_flushEvents s
  · exact h

theorem Timed.goOn (h : Timed s) : Timed (s.goOn position flush) := by
  intro hinit
  refine (h hinit).imp_right fun hne hset => hne ?_
  rw [← List.length_eq_zero_iff] at hset ⊢
  rwa [InsightsCollection.goOn, List.length_set] at hset

theorem timed_settle (s : InsightsCollection) (position : ℕ) (flush : Flush) (failed : Bool) :
    Timed (s.settle position flush failed) := by
  intro hinit
  cases failed with
  | true =>
    rw [settle_failed] at hinit ⊢
    exact .inl (by rw [show s.isInitialized = true from hinit]; rfl)
  | false =>
    rw [settle_saved] at hinit ⊢
    exact .inl (by rw [show s.isInitialized = true from hinit]; rfl)

theorem Timed.advance (h : Timed s) (hs : s.advance position flush failed = some t) : Timed t := by
  obtain ⟨-, rfl⟩ | ⟨-, database, cachedMetadata, ⟨flush', rfl⟩ | ⟨events, rfl⟩⟩ := advance_cases hs
  · exact timed_settle s position flush true
  · exact Timed.goOn (s := { s with database, cachedMetadata }) h
  · exact timed_settle _ position flush false

theorem Timed.next (h : Timed s) (hs : s.next flushBatchSize e = some t) : Timed t := by
  cases e with
  | workflowFinished ctx timestamp =>
    cases hs
    rcases s.handleWorkflowExecuteAfter_cases flushBatchSize ctx timestamp with
      heq | ⟨-, ⟨-, heq⟩ | ⟨-, heq⟩⟩
    · rw [heq]
      exact h
    · rw [heq]
      exact timed_flushEvents (s.collect (s.newInsights ctx timestamp))
    · rw [heq]
      exact Timed.flushIfFull (s := s.collect (s.newInsights ctx timestamp)) h
  | timerFires =>
    simp only [next] at hs
    split_ifs at hs
    cases hs
    exact timed_flushEvents _
  | flushAdvances position failed =>
    obtain ⟨flush, -, hs⟩ := Option.bind_eq_some_iff.mp hs
    exact h.advance hs
  | handlerResumes position =>
    obtain ⟨id, -, hs⟩ := Option.bind_eq_some_iff.mp hs
    split_ifs at hs
    cases hs
    exact Timed.flushIfFull (s := { s with handlers := s.handlers.eraseIdx position }) h
  | shutdown =>
    simp only [next] at hs
    split_ifs at hs
    cases hs
    exact timed_flushEvents
      { s.cancelScheduledFlushing with isAsynchronouslySavingInsights := false }
  | shutdownReturns =>
    obtain ⟨shutdown, -, hs⟩ := Option.bind_eq_some_iff.mp hs
    split_ifs at hs
    cases hs
    exact nofun
  | shared workflowId project =>
    cases hs
    exact h
  | workflowDeleted workflowId =>
    cases hs
    exact fun hinit => (h hinit).imp_right fun hne hmap => hne (List.map_eq_nil_iff.mp hmap)

/-! ## Shutdown -/

/-- During shutdown a flush fails that is not the one that shutdown has started. -/
def Slip (s : InsightsCollection) : Event → Prop
  | .flushAdvances position failed =>
    failed = true ∧ s.isInitialized = true ∧ ∃ shutdown ∈ s.shutdown,
      ∃ flush ∈ s.flushesInProgress[position]?, shutdown.final ≠ some flush.id
  | _ => False

/-- During shutdown the buffer stays empty, unless the last flush has failed. -/
structure Emptied (s : InsightsCollection) : Prop where
  stopping : s.shutdown.isSome → s.isAsynchronouslySavingInsights = false
  empty : s.shutdown.isSome → s.isInitialized = true →
    s.bufferedInsights = [] ∨ s.finalFailed = true

theorem Emptied.of_eq (h : Emptied s) (hshutdown : t.shutdown = s.shutdown)
    (hasync : t.isAsynchronouslySavingInsights = s.isAsynchronouslySavingInsights)
    (hinit : t.isInitialized = s.isInitialized) (hfinal : t.finalFailed = s.finalFailed)
    (hbuffer : s.bufferedInsights = [] → t.bufferedInsights = []) : Emptied t where
  stopping := by
    rw [hshutdown, hasync]
    exact h.stopping
  empty := by
    rw [hshutdown, hinit, hfinal]
    exact fun hsome hi => (h.empty hsome hi).imp_left hbuffer

theorem Emptied.flushEvents (h : s.shutdown.isSome → s.isAsynchronouslySavingInsights = false) :
    Emptied s.flushEvents where
  stopping := by
    rw [flushEvents_shutdown, flushEvents_isAsynchronouslySavingInsights]
    exact h
  empty _ hinit := by
    rw [flushEvents_isInitialized] at hinit
    exact .inl (bufferedInsights_flushEvents hinit)

theorem Emptied.flushIfFull (h : Emptied s) : Emptied (s.flushIfFull flushBatchSize) := by
  unfold InsightsCollection.flushIfFull
  split_ifs
  · exact .flushEvents h.stopping
  · exact h

theorem Emptied.advance (h : Emptied s) (hflush : s.flushesInProgress[position]? = some flush)
    (hs : s.advance position flush failed = some t)
    (hslip : ¬ Slip s (.flushAdvances position failed)) : Emptied t := by
  obtain ⟨rfl, rfl⟩ | ⟨-, database, cachedMetadata, ⟨flush', rfl⟩ | ⟨events, rfl⟩⟩ :=
    advance_cases hs
  · rw [settle_failed]
    refine ⟨h.stopping, fun hsome hinit => .inr ?_⟩
    -- the flush that fails is the last one
    obtain ⟨shutdown, hshutdown⟩ := Option.isSome_iff_exists.mp hsome
    have hfinal : shutdown.final = some flush.id := by
      by_contra hne
      exact hslip ⟨rfl, hinit, shutdown, hshutdown, flush, hflush, hne⟩
    simp [show s.shutdown = some shutdown from hshutdown, hfinal]
  · exact h.of_eq rfl rfl rfl rfl id
  · rw [InsightsCollection.complete, settle_saved]
    exact h.of_eq rfl rfl rfl rfl id

theorem Emptied.next (h : Emptied s) (hs : s.next flushBatchSize e = some t)
    (hslip : ¬ Slip s e) : Emptied t := by
  cases e with
  | workflowFinished ctx timestamp =>
    cases hs
    rcases s.handleWorkflowExecuteAfter_cases flushBatchSize ctx timestamp with
      heq | ⟨-, ⟨-, heq⟩ | ⟨hasync, heq⟩⟩
    · rw [heq]
      exact h
    · rw [heq]
      exact (Emptied.flushEvents (s := s.collect (s.newInsights ctx timestamp)) h.stopping).of_eq
        rfl rfl rfl rfl id
    · -- shutdown has not begun
      rw [heq]
      have hnone : s.shutdown.isSome → False := by
        intro hsome
        rw [h.stopping hsome] at hasync
        cases hasync
      exact Emptied.flushIfFull (s := s.collect (s.newInsights ctx timestamp))
        ⟨h.stopping, fun hsome => (hnone hsome).elim⟩
  | timerFires =>
    simp only [next] at hs
    split_ifs at hs
    cases hs
    exact .flushEvents (s := s.cancelScheduledFlushing) h.stopping
  | flushAdvances position failed =>
    obtain ⟨flush, hflush, hs⟩ := Option.bind_eq_some_iff.mp hs
    exact h.advance hflush hs hslip
  | handlerResumes position =>
    obtain ⟨id, -, hs⟩ := Option.bind_eq_some_iff.mp hs
    split_ifs at hs
    cases hs
    exact Emptied.flushIfFull (s := { s with handlers := s.handlers.eraseIdx position })
      (h.of_eq rfl rfl rfl rfl fun hbuffer => hbuffer)
  | shutdown =>
    simp only [next] at hs
    split_ifs at hs with hinit
    cases hs
    refine ⟨fun _ => ?_, fun _ _ => .inl ?_⟩
    · exact flushEvents_isAsynchronouslySavingInsights
    · exact bufferedInsights_flushEvents (s := { s.cancelScheduledFlushing with
        isAsynchronouslySavingInsights := false }) hinit.1
  | shutdownReturns =>
    obtain ⟨shutdown, -, hs⟩ := Option.bind_eq_some_iff.mp hs
    split_ifs at hs
    cases hs
    exact ⟨h.stopping, fun _ hinit => nomatch hinit⟩
  | shared workflowId project =>
    cases hs
    exact h.of_eq rfl rfl rfl rfl id
  | workflowDeleted workflowId =>
    cases hs
    exact h.of_eq rfl rfl rfl rfl id

end InsightsCollection

/-! ## Runs of the service -/

open InsightsCollection

variable {flushBatchSize : ℕ} {database : Database} {es : List Event} {s : InsightsCollection}

theorem conserved_run (h : (collection flushBatchSize).Run (.initial database) es s) :
    Conserved s ∧ Justified s :=
  h.history_invariant (I := fun _ s => Conserved s ∧ Justified s)
    ⟨⟨List.Perm.refl _, rfl⟩, ⟨nofun, nofun⟩⟩ fun hs hstep => hs.1.next hs.2 hstep

theorem timed_run (h : (collection flushBatchSize).Run (.initial database) es s) : Timed s :=
  h.history_invariant (I := fun _ => Timed) (fun _ => .inl rfl) fun hs hstep => hs.next hstep

/-- A run without a slip. -/
abbrev Steady (flushBatchSize : ℕ) : Transition.System InsightsCollection Event :=
  (collection flushBatchSize).restrict fun s e _ => ¬ Slip s e

theorem emptied_run (h : (Steady flushBatchSize).Run (.initial database) es s) : Emptied s :=
  h.history_invariant (I := fun _ => Emptied) ⟨nofun, nofun⟩ fun hs hstep => hs.next hstep.1 hstep.2

/-- **What becomes of the insights.** Each insight that was collected was inserted, was dropped by a
flush that saw its workflow without an owner, is in the buffer or in a flush in progress, in one of
these places and once. While the service collects, a buffer has a timer or a flush. Along a run
without a slip shutdown leaves the buffer empty, unless its own flush has failed. -/
theorem collection_run (h : (collection flushBatchSize).Run (.initial database) es s) :
    s.everything.Perm s.collected ∧ s.everything.Nodup ∧
    (∀ d ∈ s.dropped, d.1 ∈ d.2.events ∧ d.1.workflowId ∈ d.2.unshared) ∧
    (s.isInitialized = true → s.isAsynchronouslySavingInsights = true → s.flushesInProgress = [] →
      s.bufferedInsights ≠ [] → s.flushInsightsRawBufferTimer = true) ∧
    ((Steady flushBatchSize).Run (.initial database) es s →
      ∀ fs, es = fs ++ [.shutdownReturns] → s.bufferedInsights = [] ∨ s.finalFailed = true) := by
  obtain ⟨hconserved, hjustified⟩ := conserved_run h
  refine ⟨hconserved.perm, hconserved.nodup, hjustified.dropped, ?_, ?_⟩
  · intro hinit _ hnone _
    exact (timed_run h hinit).resolve_right fun hne => hne hnone
  · rintro hsteady fs rfl
    obtain ⟨t, hrun, hstep, -⟩ := hsteady.exists_last
    obtain ⟨shutdown, hshutdown, hs⟩ := Option.bind_eq_some_iff.mp hstep
    split_ifs at hs with hreturns
    cases hs
    exact (emptied_run hrun).empty (Option.isSome_iff_exists.mpr ⟨shutdown, hshutdown⟩) hreturns.1

def finished (workflowId : String) : Event :=
  .workflowFinished ⟨workflowId, "w", none, false, .trigger, .success, none, 0, none, []⟩ 0

/-- Three insights inserted by the timer, before shutdown. -/
theorem collection_run_inserted : ∃ s : InsightsCollection, s.inserted.length = 3 ∧
    s.everything.Perm s.collected ∧ s.bufferedInsights = [] := by
  obtain ⟨s, hrun, hinserted, hfinal⟩ : ∃ s, (Steady 10).Run
      (.initial ⟨.set .empty "a" ⟨"p", "P"⟩, []⟩)
      ([finished "a", .timerFires, .flushAdvances 0 false, .flushAdvances 0 false,
        .flushAdvances 0 false, .flushAdvances 0 false, .flushAdvances 0 false,
        .flushAdvances 0 false, .shutdown] ++ [.shutdownReturns]) s ∧
      s.inserted.length = 3 ∧ s.finalFailed = false := by
    have hgood : ∀ u, ¬ Slip u (.flushAdvances 0 false) := fun u h => nomatch h.1
    refine ⟨_, .restrict_cons rfl id <| .restrict_cons rfl id <| .restrict_cons rfl (hgood _) <|
      .restrict_cons rfl (hgood _) <| .restrict_cons rfl (hgood _) <|
      .restrict_cons rfl (hgood _) <| .restrict_cons rfl (hgood _) <|
      .restrict_cons rfl (hgood _) <| .restrict_cons rfl id <| .restrict_cons rfl id .nil,
      rfl, rfl⟩
  obtain ⟨hperm, -, -, -, hemptied⟩ := collection_run hrun.of_restrict
  refine ⟨s, hinserted, hperm, (hemptied hrun _ rfl).resolve_right ?_⟩
  rw [hfinal]
  exact Bool.false_ne_true

/-- **A flush that fails while shutdown waits for it.** Shutdown finds an empty buffer, and returns
with the three insights that were put back. -/
theorem not_emptied : ∃ s, (collection 1).Run (.initial ⟨.empty, []⟩)
    ([finished "a", .shutdown, .flushAdvances 0 true] ++ [.shutdownReturns]) s ∧
    s.bufferedInsights.length = 3 ∧ s.finalFailed = false :=
  ⟨_, Transition.System.run_of_follow id rfl, rfl, rfl⟩

end N8n.Insights
