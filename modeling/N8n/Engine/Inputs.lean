import N8n.Engine.Safety

/-!
# The inputs of a step

A handler that has claimed a step reads, for every edge into its node, the row at the other end. The
planner queued the step from the rows it had loaded; the handler reads the rows that are there when
the step is claimed, with the same mapping of iterations.

## Main definitions

* `resolveInputReads`: which row each incoming edge reads
* `readEdgeValue`: the value an edge delivers
* `gatherInputs`: the inputs of a step
* `Fated`: the fate of every unsettled row is to run

## Main results

* `fated_of_reachable`: in every reachable state the planner would queue every unsettled row
* `reads_distinct`: the edges that apply to a step fill different input slots
* `gatherInputs_of_queued`: the inputs of a step that was queued can be gathered
-/

namespace N8n.Engine

/-! ## Reading inputs -/

/-- The row that an edge reads. -/
structure InputRead where
  edge : GraphEdge
  key : StepKey

section Reads

variable (loops : List WorkflowLoop) (step : StepRecord)

/-- The reads of the edges that apply, an error where an edge leaves a loop that has not ended. -/
def edgeReads (terminalIterations : String → Option ℕ) :
    List GraphEdge → Except String (List InputRead)
  | [] => .ok []
  | edge :: edges =>
    match sourceRow edge (classifyEdge edge loops) step.toStepKey (terminalIterations edge.from) with
    | .row key => (edgeReads terminalIterations edges).map fun reads => ⟨edge, key⟩ :: reads
    | .none => edgeReads terminalIterations edges
    | .pending => .error ("step " ++ toString step.id ++ " reads node " ++ edge.from ++
        " across a loop that has not ended")

/-- No two reads fill one input slot; `filled` are the slots before. -/
def checkFilledSlots : List InputRead → List ℚ → Except String Unit
  | [], _ => .ok ()
  | read :: reads, filled =>
    if read.edge.inputIndex ∈ filled then
      .error ("step " ++ toString step.id ++ " runs node " ++ step.nodeId ++
        ", which has more than one edge into input slot " ++ showIndex read.edge.inputIndex ++
        "; validated graphs have at most one edge per input slot")
    else checkFilledSlots reads (read.edge.inputIndex :: filled)

def resolveInputReads (incoming : List GraphEdge) (terminalIterations : String → Option ℕ) :
    Except String (List InputRead) := do
  let reads ← edgeReads loops step terminalIterations incoming
  if reads = [] then
    .error ("step " ++ toString step.id ++ " runs node " ++ step.nodeId ++
      ", which no edge reaches at iteration " ++ toString step.iteration)
  else
    checkFilledSlots step reads []
    .ok reads

/-- The value an edge delivers: `null` for a dead edge. -/
def readEdgeValue (read : InputRead) (rows : StepKey → Option StepRecord) :
    Except String JsonValue :=
  let error := .error ("step " ++ toString step.id ++ " reads node " ++ read.edge.from ++
    ", whose step has not settled")
  match rows read.key with
  | none => error
  | some row =>
    if isSettledStatus row.status then
      .ok (if row.status = .completed then
        (row.outputs.getD []).getD read.edge.outputIndex.num.toNat .null else .null)
    else error

def fillInputs (rows : StepKey → Option StepRecord) :
    List InputRead → StepSlots → Except String StepSlots
  | [], inputs => .ok inputs
  | read :: reads, inputs => do
    let value ← readEdgeValue step read rows
    fillInputs rows reads (inputs.set read.edge.inputIndex.num.toNat value)

end Reads

/-- Inputs for a step: the last passes are read from `terminals`, then the rows from `table`. -/
def gatherInputs (graph : WorkflowGraph) (step : StepRecord) (terminals table : StepTable) :
    Except String StepSlots := do
  let incoming := incomingEdges graph step.nodeId
  if incoming = [] then
    .error ("step " ++ toString step.id ++ " runs node " ++ step.nodeId ++
      ", which has no predecessor in the execution graph")
  else
    let loops := deriveLoops graph
    let reads ← resolveInputReads loops step incoming
      (loadTerminalIterations terminals (exitSourcesInto graph loops [step.nodeId]))
    let highest := reads.foldl (fun highest read => max highest read.edge.inputIndex.num.toNat) 0
    fillInputs step table.at? reads (List.replicate (highest + 1) .null)

/-! ## The edges that apply fill different slots -/

/-- The slots that the forward edges feed are different. -/
theorem checkInputSlots_ok {edges : List GraphEdge} {seen : List (String × ℚ)}
    (h : checkInputSlots edges seen = .ok ()) :
    ((edges.filter fun edge => ¬ edge.isBackEdge).map fun edge =>
      (edge.to, edge.inputIndex)).Nodup ∧
    ∀ edge ∈ edges, edge.isBackEdge = false → (edge.to, edge.inputIndex) ∉ seen := by
  induction edges generalizing seen with
  | nil => simp
  | cons edge edges ih =>
    unfold checkInputSlots at h
    split_ifs at h with hb
    · obtain ⟨hnd, hseen⟩ := ih h
      refine ⟨by simpa [hb] using hnd, List.forall_mem_cons.mpr ⟨fun hf => ?_, hseen⟩⟩
      simp [hb] at hf
    · rw [bind_ok, rejectIf_ok] at h
      obtain ⟨hnew, hrest⟩ := h
      obtain ⟨hnd, hseen⟩ := ih hrest
      refine ⟨?_, List.forall_mem_cons.mpr ⟨fun _ => hnew, fun e he hf hin => ?_⟩⟩
      · rw [List.filter_cons_of_pos (by simp [hb]), List.map_cons, List.nodup_cons]
        refine ⟨fun hin => ?_, hnd⟩
        obtain ⟨other, ho, heq⟩ := List.mem_map.mp hin
        obtain ⟨ho, hforward⟩ := List.mem_filter.mp ho
        exact hseen other ho (by simpa using hforward) (heq ▸ List.mem_cons_self)
      · exact hseen e he hf (List.mem_cons_of_mem _ hin)

theorem checkInputSlots_of_valid {graph : WorkflowGraph}
    (h : validateExecutableGraph graph = .ok ()) : checkInputSlots graph.edges [] = .ok () := by
  unfold validateExecutableGraph at h
  split at h
  · cases h
  · cases h
  · simp only [bind_ok] at h
    exact h.2.2.2

/-- The row an edge reads at a step, none if it does not apply. -/
def readOf (loops : List WorkflowLoop) (key : StepKey) (terminalIterations : String → Option ℕ)
    (edge : GraphEdge) : Option InputRead :=
  match sourceRow edge (classifyEdge edge loops) key (terminalIterations edge.from) with
  | .row source => some ⟨edge, source⟩
  | _ => none

theorem readOf_eq_some {loops : List WorkflowLoop} {key : StepKey}
    {terminalIterations : String → Option ℕ} {edge : GraphEdge} {read : InputRead} :
    readOf loops key terminalIterations edge = some read ↔ read.edge = edge ∧
      sourceRow edge (classifyEdge edge loops) key (terminalIterations edge.from) =
        .row read.key := by
  unfold readOf
  obtain ⟨e, k⟩ := read
  split
  · rename_i source hs
    simp [hs, eq_comm]
  · rename_i hs
    simp only [reduceCtorEq, false_iff, not_and]
    exact fun _ => hs k

section Distinct

variable {graph : WorkflowGraph} {trigger : GraphNode} (h : Executable graph trigger)
  (hv : validateExecutableGraph graph = .ok ())

include h hv

/-- Two edges into one node that apply at the same iteration fill different slots. -/
theorem reads_distinct {key : StepKey} {terminalIterations : String → Option ℕ} :
    (graph.edges.filter fun edge => edge.to = key.nodeId).Pairwise fun edge edge' =>
      ∀ read, readOf (deriveLoops graph) key terminalIterations edge = some read →
      ∀ read', readOf (deriveLoops graph) key terminalIterations edge' = some read' →
        edge.inputIndex ≠ edge'.inputIndex := by
  rw [List.pairwise_iff_forall_sublist]
  intro edge edge' hsub read hread read' hread' hslot
  have hto : edge.to = key.nodeId := by
    simpa using (List.mem_filter.mp (hsub.subset (by simp))).2
  have hto' : edge'.to = key.nodeId := by
    simpa using (List.mem_filter.mp (hsub.subset (by simp))).2
  have hsub := hsub.trans List.filter_sublist
  have he : edge ∈ graph.edges := hsub.subset (by simp)
  have he' : edge' ∈ graph.edges := hsub.subset (by simp)
  obtain ⟨-, hsrc⟩ := readOf_eq_some.mp hread
  obtain ⟨-, hsrc'⟩ := readOf_eq_some.mp hread'
  -- a back-edge applies from the second pass on, where no other edge into the head applies
  have hmixed : ∀ {e e' : GraphEdge} {k k' : StepKey}, e ∈ graph.edges → e' ∈ graph.edges →
      e.to = key.nodeId → e'.to = key.nodeId → e.isBackEdge = true → e'.isBackEdge = false →
      sourceRow e (classifyEdge e (deriveLoops graph)) key (terminalIterations e.from) = .row k →
      sourceRow e' (classifyEdge e' (deriveLoops graph)) key (terminalIterations e'.from) =
        .row k' → False := by
    intro e e' k k' he he' hto hto' hb hf hsrc hsrc'
    obtain ⟨loop, hl, hhead, -⟩ := h.back_edge he hb
    rw [Executable.classifyEdge_eq_back.mpr hb] at hsrc
    have hiter : key.iteration ≠ 0 := by
      intro hz
      simp [sourceRow, hz] at hsrc
    have hpos : 0 < key.iteration := Nat.pos_of_ne_zero hiter
    have hmem : e'.to ∈ loop.memberIds := by
      rw [hto', ← hto, ← hhead]
      exact h.head_mem hl
    have hshape := h.edgeShape he'
    generalize hc : classifyEdge e' (deriveLoops graph) = edgeClass at hshape hsrc'
    cases hshape with
    | plain source target => exact target loop hl hmem
    | entry => simp [sourceRow, hpos] at hsrc'
    | intra loop' mem source target body =>
      rw [h.loop_unique mem hl target hmem, hhead, hto, hto'] at body
      exact body rfl
    | back =>
      rw [Executable.classifyEdge_eq_back.mp hc] at hf
      cases hf
    | exit => simp [sourceRow, hpos] at hsrc'
  cases hb : edge.isBackEdge with
  | true =>
    cases hb' : edge'.isBackEdge with
    | true =>
      -- a loop has one back-edge only
      obtain ⟨loop, hl, hhead, -⟩ := h.back_edge he hb
      have hback : [edge, edge'].Sublist loop.backEdges := by
        rw [show loop.backEdges = graph.edges.filter fun e =>
          e.isBackEdge ∧ e.to = loop.batchNodeId from congrArg WorkflowLoop.backEdges (loop_eq hl)]
        have := hsub.filter fun e => e.isBackEdge ∧ e.to = loop.batchNodeId
        simpa [hb, hb', hhead, hto, hto'] using this
      have := hback.length_le
      have := h.back_length loop hl
      simp only [List.length_cons, List.length_nil] at *
      omega
    | false => exact hmixed he he' hto hto' hb hb' hsrc hsrc'
  | false =>
    cases hb' : edge'.isBackEdge with
    | true => exact hmixed he' he hto' hto hb' hb hsrc' hsrc
    | false =>
      have hnd := (checkInputSlots_ok (checkInputSlots_of_valid hv)).1
      have hpair := (hsub.filter fun edge => ¬ edge.isBackEdge).map fun edge : GraphEdge =>
        (edge.to, edge.inputIndex)
      simp only [hb, hb', List.filter_cons, Bool.false_eq_true, not_false_eq_true, decide_true,
        if_true, List.filter_nil, List.map_cons, List.map_nil] at hpair
      have := hpair.nodup hnd
      simp [hto, hto', hslot] at this

end Distinct

/-! ## What the planner saw -/

/-- A step that is judged to run has a live edge, unless there was one before. -/
theorem exists_live_of_judge {loops : List WorkflowLoop} {candidate : StepKey} {steps : StepsById}
    {terminals : String → Option ℕ} {edges : List GraphEdge} {n : ℕ} {live : Bool}
    (h : judge loops candidate steps terminals edges n live = .queued) :
    live = true ∨ ∃ edge ∈ edges, ∃ key step,
      sourceRow edge (classifyEdge edge loops) candidate (terminals edge.from) = .row key ∧
        steps (stepKeyId key) = some step ∧ isLive step edge = true := by
  induction edges generalizing n live with
  | nil =>
    rw [judge] at h
    split_ifs at h with hn hlive
    exact .inl hlive
  | cons edge edges ih =>
    have hrest : ∀ {n : ℕ} {live : Bool},
        judge loops candidate steps terminals edges n live = .queued → live = true ∨
        ∃ e ∈ edge :: edges, ∃ key step,
          sourceRow e (classifyEdge e loops) candidate (terminals e.from) = .row key ∧
            steps (stepKeyId key) = some step ∧ isLive step e = true := by
      intro n live hj
      refine (ih hj).imp_right ?_
      rintro ⟨e, he, hlive⟩
      exact ⟨e, List.mem_cons_of_mem _ he, hlive⟩
    rw [judge] at h
    split at h
    · exact hrest h
    · cases h
    · rename_i key hkey
      split at h
      · cases h
      · rename_i step hstep
        split_ifs at h
        rcases hrest h with hlive | hlive
        · rcases Bool.or_eq_true_iff.mp hlive with hlive | hlive
          · exact .inl hlive
          · exact .inr ⟨edge, List.mem_cons_self, key, step, hkey, hstep, hlive⟩
        · exact .inr hlive

def Fated (graph : WorkflowGraph) (table : StepTable) : Prop :=
  ∀ row ∈ table.rows, ¬ row.Settled → fateFrom graph table table row.toStepKey = .queued

section Fated

variable {execution : ExecutionRecord} {trigger : GraphNode}
  (h : Executable execution.graph trigger)

include h

/-- A row that one operation adds has settled, or the planner decided that it runs. -/
theorem fate_of_new (outcome : Except StepError StepSlots) {store : Store} {pc : Pc}
    (hp : PcInv execution.graph trigger store.steps pc) {row : StepRecord}
    (hr : row ∈ (advance execution outcome store pc).store.steps.rows) (hs : ¬ row.Settled)
    (hnew : ∀ old ∈ store.steps.rows, old.toStepKey ≠ row.toStepKey) :
    fateFrom execution.graph store.steps store.steps row.toStepKey = .queued := by
  have hsame : ∀ {table : StepTable}, row ∈ table.rows →
      table.rows.map StepRecord.toStepKey = store.steps.rows.map StepRecord.toStepKey → False := by
    intro table hr hkeys
    have hmem : row.toStepKey ∈ store.steps.rows.map StepRecord.toStepKey :=
      hkeys ▸ List.mem_map_of_mem hr
    obtain ⟨old, ho, hk⟩ := List.mem_map.mp hmem
    exact hnew old ho hk
  have htransition : ∀ f t, (store.transitionStatus f t).1.steps = store.steps := by
    intro f t
    unfold Store.transitionStatus
    split_ifs <;> rfl
  cases pc with
  | claimExecution =>
    simp only [advance, htransition] at hr
    exact (hsame hr rfl).elim
  | createTrigger =>
    simp only [advance, h.findTriggerNode] at hr
    obtain ⟨hrows, -, hcreated, -⟩ := store.steps.exists_created
      [⟨⟨trigger.id, 0⟩, .completed (execution.triggerOutputs.getD [])⟩]
    rw [hrows] at hr
    rcases List.mem_append.mp hr with hr | hr
    · exact absurd rfl (hnew row hr)
    · obtain ⟨-, record, hrec, hrow⟩ := hcreated row hr
      rw [List.mem_singleton.mp hrec] at hrow
      refine absurd ?_ hs
      rw [hrow]
      rfl
  | failExecution =>
    simp only [advance, Store.finishExecution, htransition] at hr
    exact (hsame hr rfl).elim
  | cancelQueued => exact (hsame hr store.steps.cancelQueuedSteps_keys).elim
  | createSuccessors decisions =>
    obtain ⟨hrows, -, hcreated, -⟩ := store.steps.exists_created decisions.records
    simp only [advance] at hr
    rw [hrows] at hr
    rcases List.mem_append.mp hr with hr | hr
    · exact absurd rfl (hnew row hr)
    · obtain ⟨-, record, hrec, hrow⟩ := hcreated row hr
      rcases List.mem_append.mp hrec with hrec | hrec
      · obtain ⟨key, hk, rfl⟩ := List.mem_map.mp hrec
        have hkey : row.toStepKey = key := by rw [hrow]; rfl
        rw [hkey]
        exact (hp.1 key hk).2
      · -- a skipped step is created settled
        obtain ⟨key, hk, rfl⟩ := List.mem_map.mp hrec
        refine absurd ?_ hs
        rw [hrow]
        rfl
  | recordOutcome failed =>
    simp only [advance, Store.finishExecution, htransition] at hr
    exact (hsame hr rfl).elim
  | claimStep stepId => exact (hsame hr (store.steps.claimStep_keys stepId)).elim
  | recordStep stepId outcome =>
    cases outcome with
    | ok outputs => exact (hsame hr (store.steps.completeStep_keys stepId outputs)).elim
    | error error => exact (hsame hr (store.steps.failStep_keys stepId error)).elim
  | announce messages finish =>
    cases messages <;> exact (@hsame store.steps hr rfl).elim
  | _ => exact (@hsame store.steps hr rfl).elim

/-- One step keeps every unsettled row fated to run. -/
theorem Fated.next {s t : State} (hs : Safe execution.graph trigger s)
    (hf : Fated execution.graph s.store.steps) {e : Event} (hn : s.next execution e = some t) :
    Fated execution.graph t.store.steps := by
  obtain ⟨ht, hext⟩ := hs.next h hn
  have hstable : ∀ key, fateFrom execution.graph s.store.steps s.store.steps key = .queued →
      fateFrom execution.graph t.store.steps t.store.steps key = .queued := by
    intro key hq
    rw [h.fate_stable hs.orderly hs.orderly ht.orderly hext hext (by simp [hq]), hq]
  intro row hr hunsettled
  by_cases hold : ∃ old ∈ s.store.steps.rows, old.toStepKey = row.toStepKey
  · obtain ⟨old, ho, hk⟩ := hold
    have hou : ¬ old.Settled := by
      intro hos
      have := t.store.steps.eq_of_key (hext.settled ho hos) hr hk
      exact hunsettled (this ▸ hos)
    exact hk ▸ hstable _ (hf old ho hou)
  · push Not at hold
    apply hstable
    rcases next_cases hn with ⟨m, hm, rfl⟩ | ⟨p, outcome, hmove⟩ | ⟨-, hstore, -, -, hproc⟩
    · exact absurd rfl (hold row hr)
    · rw [hmove.store] at hr
      exact fate_of_new h outcome (hs.pc p hmove.mem) hr hunsettled hold
    · rw [hstore] at hr
      exact absurd rfl (hold row hr)

/-- **In every reachable state** the planner would queue every unsettled row. -/
theorem fated_of_reachable {s : State} (hs : (engine execution).Reachable s) :
    Fated execution.graph s.store.steps := by
  refine hs.invariant_of_reachable (I := fun s => Fated execution.graph s.store.steps)
    (fun h₀ => ?_) fun hu hf hn => ?_
  · rw [h₀]
    intro row hr
    exact absurd hr (List.not_mem_nil (a := row))
  · exact hf.next h (safe_of_reachable h hu) hn

end Fated

/-! ## Gathering the inputs -/

section Gather

variable {graph : WorkflowGraph} {loops : List WorkflowLoop} {step : StepRecord}
  {terminals : String → Option ℕ} {rows : StepKey → Option StepRecord} {reads : List InputRead}

/-- With no edge out of an unfinished loop every edge that applies is read. -/
theorem edgeReads_eq {edges : List GraphEdge}
    (h : ∀ edge ∈ edges, sourceRow edge (classifyEdge edge loops) step.toStepKey
      (terminals edge.from) ≠ .pending) :
    edgeReads loops step terminals edges =
      .ok (edges.filterMap (readOf loops step.toStepKey terminals)) := by
  induction edges with
  | nil => rfl
  | cons edge edges ih =>
    have ih := ih fun e he => h e (List.mem_cons_of_mem _ he)
    have hne := h edge List.mem_cons_self
    rw [edgeReads, List.filterMap_cons, readOf]
    split
    · rename_i key hkey
      simp [ih, hkey, Except.map]
    · rename_i hkey
      simp [ih, hkey]
    · rename_i hkey
      exact absurd hkey hne

theorem checkFilledSlots_eq {filled : List ℚ}
    (hnd : (reads.map fun read => read.edge.inputIndex).Nodup)
    (hf : ∀ read ∈ reads, read.edge.inputIndex ∉ filled) :
    checkFilledSlots step reads filled = .ok () := by
  induction reads generalizing filled with
  | nil => rfl
  | cons read reads ih =>
    obtain ⟨hnew, hnd⟩ := List.nodup_cons.mp hnd
    rw [checkFilledSlots, if_neg (hf read List.mem_cons_self)]
    refine ih hnd fun other ho hin => ?_
    rcases List.mem_cons.mp hin with heq | hin
    · exact hnew (List.mem_map.mpr ⟨other, ho, heq⟩)
    · exact hf other (List.mem_cons_of_mem _ ho) hin

theorem exists_fillInputs
    (h : ∀ read ∈ reads, ∃ row, rows read.key = some row ∧ row.Settled) (inputs : StepSlots) :
    ∃ filled, fillInputs step rows reads inputs = .ok filled := by
  induction reads generalizing inputs with
  | nil => exact ⟨inputs, rfl⟩
  | cons read reads ih =>
    obtain ⟨row, hrow, hset⟩ := h read List.mem_cons_self
    have hset : isSettledStatus row.status = true := hset
    have hvalue : ∃ value, readEdgeValue step read rows = .ok value := by
      unfold readEdgeValue
      simp [hrow, hset]
    obtain ⟨value, hvalue⟩ := hvalue
    obtain ⟨filled, hfilled⟩ := ih (fun other ho => h other (List.mem_cons_of_mem _ ho))
      (inputs.set read.edge.inputIndex.num.toNat value)
    exact ⟨filled, by rw [fillInputs, hvalue]; exact hfilled⟩

end Gather

section Results

variable {execution : ExecutionRecord} {terminals table : StepTable} {graph : WorkflowGraph}

/-- The reads of a step whose fate is to run. -/
structure Readable (graph : WorkflowGraph) (step : StepRecord) (terminals table : StepTable)
    (reads : List InputRead) : Prop where
  /-- No incoming edge is still pending, and no two that apply fill the same slot. -/
  resolved : resolveInputReads (deriveLoops graph) step (incomingEdges graph step.nodeId)
    (loadTerminalIterations terminals
      (exitSourcesInto graph (deriveLoops graph) [step.nodeId])) = .ok reads
  nodup : (reads.map fun read => read.edge.inputIndex).Nodup
  settled : ∀ read ∈ reads, ∃ row, table.at? read.key = some row ∧ row.Settled
  live : ∃ read ∈ reads, ∃ row, table.at? read.key = some row ∧ isLive row.summary read.edge = true

/-- The reads of a fated step, from the last passes of one table and the rows of another. -/
theorem Executable.readable {trigger : GraphNode} (h : Executable graph trigger)
    (hv : validateExecutableGraph graph = .ok ()) {step : StepRecord}
    (hq : fateFrom graph terminals table step.toStepKey = .queued) :
    ∃ reads, Readable graph step terminals table reads := by
  set loaded := loadTerminalIterations terminals
    (exitSourcesInto graph (deriveLoops graph) [step.nodeId]) with hloaded
  -- the handler maps iterations as the planner did
  have hsame : ∀ edge ∈ incomingEdges graph step.nodeId,
      sourceRow edge (classifyEdge edge (deriveLoops graph)) step.toStepKey (loaded edge.from) =
        sourceAt graph terminals step.toStepKey edge := by
    intro edge he
    obtain ⟨he, hto⟩ := List.mem_filter.mp he
    apply sourceRow_congr
    intro hx
    refine loadTerminalIterations_apply (mem_exitSourcesInto.mpr ⟨edge, he, ?_, hx, rfl⟩)
    simpa using hto
  obtain ⟨hpast, hres, -⟩ := creates_iff.mp (show (fateFrom graph terminals table
    step.toStepKey).Creates from .inl hq)
  have hresolved : ∀ edge ∈ incomingEdges graph step.nodeId,
      (sourceAt graph terminals step.toStepKey edge).Resolved table.view := by
    intro edge he
    obtain ⟨he, hto⟩ := List.mem_filter.mp he
    exact hres edge he (by simpa using hto)
  set reads := (incomingEdges graph step.nodeId).filterMap
    (readOf (deriveLoops graph) step.toStepKey loaded) with hreads
  have hmem : ∀ read, read ∈ reads ↔ read.edge ∈ incomingEdges graph step.nodeId ∧
      sourceAt graph terminals step.toStepKey read.edge = .row read.key := by
    intro read
    rw [hreads, List.mem_filterMap]
    constructor
    · rintro ⟨edge, he, hread⟩
      obtain ⟨rfl, hsrc⟩ := readOf_eq_some.mp hread
      exact ⟨he, hsame _ he ▸ hsrc⟩
    · rintro ⟨he, hsrc⟩
      exact ⟨read.edge, he, readOf_eq_some.mpr ⟨rfl, (hsame _ he).trans hsrc⟩⟩
  have hsettled : ∀ read ∈ reads, ∃ row, table.at? read.key = some row ∧ row.Settled := by
    intro read hread
    obtain ⟨he, hsrc⟩ := (hmem read).mp hread
    have := hresolved _ he
    rw [hsrc, StepTable.resolved_row_iff] at this
    obtain ⟨row, hr, hk, hs⟩ := this
    exact ⟨row, StepTable.at?_eq_some.mpr ⟨hr, hk⟩, hs⟩
  have hlive : ∃ read ∈ reads, ∃ row, table.at? read.key = some row ∧
      isLive row.summary read.edge = true := by
    unfold fateFrom decideNodeFate at hq
    rw [hpast, if_neg (by simp)] at hq
    rcases exists_live_of_judge hq with hf | ⟨edge, he, key, summary, hsrc, hview, hlive⟩
    · cases hf
    · obtain ⟨row, hr, hk, rfl⟩ := StepTable.view_eq_some.mp hview
      exact ⟨⟨edge, key⟩, (hmem _).mpr ⟨he, hsrc⟩, row, StepTable.at?_eq_some.mpr ⟨hr, hk⟩, hlive⟩
  have hnd : (reads.map fun read => read.edge.inputIndex).Nodup := by
    have hpair := @reads_distinct graph trigger h hv step.toStepKey loaded
    refine List.pairwise_map.mpr (hpair.filterMap _ ?_)
    intro edge edge' hne read hread read' hread'
    rw [(readOf_eq_some.mp hread).1, (readOf_eq_some.mp hread').1]
    exact hne read hread read' hread'
  refine ⟨reads, ?_, hnd, hsettled, hlive⟩
  have hedges : edgeReads (deriveLoops graph) step loaded (incomingEdges graph step.nodeId) =
      .ok reads := by
    apply edgeReads_eq
    intro edge he hpending
    have hr := hresolved edge he
    rw [← hsame edge he, hpending] at hr
    exact hr
  obtain ⟨read, hread, -⟩ := hlive
  have hne : reads ≠ [] := List.ne_nil_of_mem hread
  have hslots : checkFilledSlots step reads [] = .ok () := checkFilledSlots_eq hnd (by simp)
  unfold resolveInputReads
  rw [← hloaded]
  simp [hedges, hne, hslots, bind, Except.bind]

theorem Readable.exists_inputs {step : StepRecord} {reads : List InputRead}
    (h : Readable graph step terminals table reads) :
    ∃ inputs, gatherInputs graph step terminals table = .ok inputs := by
  have hne : incomingEdges graph step.nodeId ≠ [] := by
    intro hnil
    have := h.resolved
    rw [hnil] at this
    cases this
  obtain ⟨filled, hfilled⟩ := exists_fillInputs h.settled (List.replicate
    (reads.foldl (fun highest read => max highest read.edge.inputIndex.num.toNat) 0 + 1) .null)
  refine ⟨filled, ?_⟩
  unfold gatherInputs
  simp only [hne, if_false, h.resolved]
  exact hfilled

/-- **Every step the planner queues can be run**: when its row is claimed, and later, no incoming
edge is pending, some live edge supplies input, the edges that apply fill different slots and every
row read has settled, so the inputs are gathered without an error. The last passes may be loaded in
a state before the one in which the rows are. -/
theorem gatherInputs_of_queued (hv : validateExecutableGraph execution.graph = .ok ()) {s t u : State}
    (hs : (engine execution).Reachable s) (ht : (engine execution).Later s t)
    (hu : (engine execution).Later t u) {queued step : StepRecord}
    (hr : queued ∈ s.store.steps.rows) (hq : queued.status = .queued)
    (hk : step.toStepKey = queued.toStepKey) :
    (∃ reads, Readable execution.graph step t.store.steps u.store.steps reads) ∧
      ∃ inputs, gatherInputs execution.graph step t.store.steps u.store.steps = .ok inputs := by
  obtain ⟨trigger, h⟩ := exists_executable hv
  have hos := (safe_of_reachable h hs).orderly
  have hot := (safe_of_reachable h (hs.later ht)).orderly
  have hst := extends_of_later h hs ht
  have hsu := hst.trans (extends_of_later h (hs.later ht) hu)
  have hfate : fateFrom execution.graph s.store.steps s.store.steps queued.toStepKey = .queued :=
    fated_of_reachable h hs queued hr (by simp [StepRecord.Settled, hq, isSettledStatus])
  have hfate' : fateFrom execution.graph t.store.steps u.store.steps step.toStepKey = .queued := by
    rw [hk, h.fate_stable hos hos hot hst hsu (by simp [hfate]), hfate]
  obtain ⟨reads, hreads⟩ := h.readable hv hfate'
  exact ⟨⟨reads, hreads⟩, hreads.exists_inputs⟩

/-- The second step of the run of two is queued once the planner has had its turns. -/
def linearQueued : State :=
  (State.initial.follow linearExecution (linearRun.take 14)).get rfl

theorem later_linearQueued : (engine linearExecution).Later linearQueued linearEnd := by
  exact @later_of_follow _ (linearRun.drop 14) _ _ rfl

/-- Claimed later, its inputs are gathered. -/
theorem gatherInputs_of_queued_linear :
    ∃ inputs, gatherInputs linearExecution.graph ⟨⟨"work", 0⟩, 1, .running, none, none⟩
      linearEnd.store.steps linearEnd.store.steps = .ok inputs := by
  have hs : (engine linearExecution).Reachable linearQueued :=
    reachable_of_follow (Option.some_get _).symm
  have hr : (⟨⟨"work", 0⟩, 1, .queued, none, none⟩ : StepRecord) ∈
      linearQueued.store.steps.rows := List.mem_iff_getElem?.mpr ⟨1, rfl⟩
  exact (@gatherInputs_of_queued linearExecution rfl _ _ _ hs later_linearQueued (.refl _)
    _ _ hr rfl rfl).2

end Results

end N8n.Engine
