import N8n.Engine.Executable
import N8n.Engine.Settlement

/-!
# The rows of an execution

What the step rows of an execution of an accepted graph look like at any time: a node outside every
loop has a row at iteration 0 only, the passes of a loop are written strictly in order, and a body
step exists for a running pass only. The planner keeps this, and it makes the fates it decides
final.

## Main definitions

* `EdgeShape`: what the class of an edge says about its ends
* `StepTable.Continues`, `StepTable.Ends`: a pass of a loop was followed, or was the last
* `Admissible`: a step may have a row
* `Orderly`: every row is admissible
* `fateFrom`, `Due`: the fate of a step in a table, and the steps the planner has to create

## Main results

* `Executable.admissible_of_considers`: the planner considers admissible steps only
* `Executable.ends_unique`: a loop has one last pass
* `Executable.fate_stable`: a fate once decided does not change
* `Executable.considers_source`: a source of an admissible step considers it
* `Executable.exists_newly_settled`: a step becomes due when one of its sources settles
-/

namespace N8n.Engine

open StepTable

open Relation (TransGen ReflTransGen)

/-! ## Shapes of edges -/

/-- What the class of an edge of an accepted graph says about its ends. -/
inductive EdgeShape (graph : WorkflowGraph) (edge : GraphEdge) : EdgeClass → Prop
  | plain (source : ∀ loop ∈ deriveLoops graph, edge.from ∉ loop.memberIds)
      (target : ∀ loop ∈ deriveLoops graph, edge.to ∉ loop.memberIds) : EdgeShape graph edge .plain
  | entry (loop : WorkflowLoop) (mem : loop ∈ deriveLoops graph)
      (source : ∀ loop ∈ deriveLoops graph, edge.from ∉ loop.memberIds)
      (target : edge.to = loop.batchNodeId) : EdgeShape graph edge .entry
  | intra (loop : WorkflowLoop) (mem : loop ∈ deriveLoops graph)
      (source : edge.from ∈ loop.memberIds) (target : edge.to ∈ loop.memberIds)
      (body : edge.to ≠ loop.batchNodeId) : EdgeShape graph edge .intra
  | back (loop : WorkflowLoop) (mem : loop ∈ deriveLoops graph)
      (source : edge.from ∈ loop.memberIds) (target : edge.to = loop.batchNodeId)
      (backEdge : edge ∈ loop.backEdges) : EdgeShape graph edge .back
  | exit (loop : WorkflowLoop) (mem : loop ∈ deriveLoops graph)
      (source : edge.from = loop.batchNodeId)
      (target : ∀ loop ∈ deriveLoops graph, edge.to ∈ loop.memberIds →
        edge.to = loop.batchNodeId) : EdgeShape graph edge .exit

namespace Executable

variable {graph : WorkflowGraph} {trigger : GraphNode} (h : Executable graph trigger)

include h

theorem loopOf_eq_some {x : String} {loop : WorkflowLoop} :
    loopOf (deriveLoops graph) x = some loop ↔ loop ∈ deriveLoops graph ∧ x ∈ loop.memberIds := by
  constructor
  · intro hf
    exact ⟨List.mem_of_find?_eq_some hf, by simpa using List.find?_some hf⟩
  · rintro ⟨hl, hx⟩
    cases hf : loopOf (deriveLoops graph) x with
    | none => simpa [hx] using List.find?_eq_none.mp hf loop hl
    | some loop' =>
      have hx' : x ∈ loop'.memberIds := by simpa using List.find?_some hf
      rw [h.loop_unique (List.mem_of_find?_eq_some hf) hl hx' hx]

omit h in
theorem loopOf_eq_none {x : String} :
    loopOf (deriveLoops graph) x = none ↔ ∀ loop ∈ deriveLoops graph, x ∉ loop.memberIds := by
  simp [loopOf]

/-- **Every edge has the shape its class says.** -/
theorem edgeShape {edge : GraphEdge} (he : edge ∈ graph.edges) :
    EdgeShape graph edge (classifyEdge edge (deriveLoops graph)) := by
  unfold classifyEdge
  cases hb : edge.isBackEdge with
  | true =>
    obtain ⟨loop, hl, ht, hbe, hf⟩ := h.back_edge he hb
    exact .back loop hl hf ht.symm hbe
  | false =>
    simp only [Bool.false_eq_true, if_false]
    cases hs : loopOf (deriveLoops graph) edge.from with
    | some loop =>
      obtain ⟨hl, hf⟩ := h.loopOf_eq_some.1 hs
      by_cases ht : loopOf (deriveLoops graph) edge.to = some loop
      · obtain ⟨-, ht'⟩ := h.loopOf_eq_some.1 ht
        simpa [ht] using EdgeShape.intra loop hl hf ht' (h.intra_edge hl he hb hf)
      · have htl : edge.to ∉ loop.memberIds := fun htl => ht (h.loopOf_eq_some.2 ⟨hl, htl⟩)
        have hshape : EdgeShape graph edge .exit := by
          refine .exit loop hl (h.exit_edge hl he hb hf htl).1 fun loop' hl' ht' => ?_
          refine h.entry_edge hl' he hb (fun hf' => ht ?_) ht'
          rw [h.loop_unique hl hl' hf hf']
          exact h.loopOf_eq_some.2 ⟨hl', ht'⟩
        have hne : some loop ≠ loopOf (deriveLoops graph) edge.to := fun he => ht he.symm
        simpa [hne] using hshape
    | none =>
      have hf := loopOf_eq_none.1 hs
      cases ht : loopOf (deriveLoops graph) edge.to with
      | some loop =>
        obtain ⟨hl, ht'⟩ := h.loopOf_eq_some.1 ht
        simpa using EdgeShape.entry loop hl hf (h.entry_edge hl he hb (hf loop hl) ht')
      | none => simpa using EdgeShape.plain hf (loopOf_eq_none.1 ht)

end Executable

/-! ## Passes of a loop -/

namespace StepTable

/-- The pass `i` of the loop of `b` has settled and was not the last. -/
def Continues (table : StepTable) (b : String) (i : ℕ) : Prop :=
  ∃ row ∈ table.rows, row.toStepKey = ⟨b, i⟩ ∧ row.Settled ∧ isTerminalStep row.summary = false

/-- The pass `i` of the loop of `b` was the last. -/
def Ends (table : StepTable) (b : String) (i : ℕ) : Prop :=
  ∃ row ∈ table.rows, row.toStepKey = ⟨b, i⟩ ∧ isTerminalStep row.summary = true

variable {table table' : StepTable} {b : String} {i : ℕ} {key : StepKey}

theorem settled_of_isTerminalStep {row : StepRecord} (h : isTerminalStep row.summary = true) :
    row.Settled := by
  unfold isTerminalStep endsLoop at h
  exact (Bool.and_eq_true_iff.mp h).1

theorem Continues.mono (h : table.Extends table') (hc : table.Continues b i) :
    table'.Continues b i := by
  obtain ⟨row, hr, hk, hs, ht⟩ := hc
  exact ⟨row, h.settled hr hs, hk, hs, ht⟩

theorem Ends.mono (h : table.Extends table') (he : table.Ends b i) : table'.Ends b i := by
  obtain ⟨row, hr, hk, ht⟩ := he
  exact ⟨row, h.settled hr (settled_of_isTerminalStep ht), hk, ht⟩

theorem Continues.not_ends (h : table.Continues b i) : ¬ table.Ends b i := by
  rintro ⟨row, hr, hk, ht⟩
  obtain ⟨row', hr', hk', -, ht'⟩ := h
  rw [eq_of_key hr hr' (hk.trans hk'.symm), ht'] at ht
  cases ht

theorem view_eq_some {step : StepSummary} :
    table.view (stepKeyId key) = some step ↔
      ∃ row ∈ table.rows, row.toStepKey = key ∧ row.summary = step := by
  rw [view_apply]
  simp [at?_eq_some, and_assoc]

theorem view_of_mem {row : StepRecord} (h : row ∈ table.rows) :
    table.view (stepKeyId row.toStepKey) = some row.summary :=
  view_eq_some.2 ⟨row, h, rfl, rfl⟩

theorem view_eq_none :
    table.view (stepKeyId key) = none ↔ ∀ row ∈ table.rows, row.toStepKey ≠ key := by
  rw [Option.eq_none_iff_forall_ne_some]
  constructor
  · rintro h row hr rfl
    exact h _ (view_of_mem hr)
  · intro h step hs
    obtain ⟨row, hr, hk, -⟩ := view_eq_some.1 hs
    exact h row hr hk

theorem resolved_row_iff :
    (SourceRow.row key).Resolved table.view ↔
      ∃ row ∈ table.rows, row.toStepKey = key ∧ row.Settled := by
  rw [SourceRow.resolved_row]
  constructor
  · rintro ⟨step, hs, hset⟩
    obtain ⟨row, hr, hk, rfl⟩ := view_eq_some.1 hs
    exact ⟨row, hr, hk, hset⟩
  · rintro ⟨row, hr, rfl, hset⟩
    exact ⟨_, view_of_mem hr, hset⟩

end StepTable

/-! ## Admissible steps -/

/-- A step may have a row: its node is reached, and its pass, if it has one, was entered. -/
structure Admissible (graph : WorkflowGraph) (trigger : GraphNode) (table : StepTable)
    (key : StepKey) : Prop where
  reachable : key.nodeId ∈ reachableFrom graph trigger.id
  plain : (∀ loop ∈ deriveLoops graph, key.nodeId ∉ loop.memberIds) → key.iteration = 0
  head : ∀ loop ∈ deriveLoops graph, key.nodeId = loop.batchNodeId →
    ∀ i, key.iteration = i + 1 → table.Continues loop.batchNodeId i
  body : ∀ loop ∈ deriveLoops graph, key.nodeId ∈ loop.memberIds →
    key.nodeId ≠ loop.batchNodeId → table.Continues loop.batchNodeId key.iteration

theorem Admissible.mono {graph : WorkflowGraph} {trigger : GraphNode} {table table' : StepTable}
    {key : StepKey} (h : Admissible graph trigger table key) (hext : table.Extends table') :
    Admissible graph trigger table' key where
  reachable := h.reachable
  plain := h.plain
  head loop hl hk i hi := (h.head loop hl hk i hi).mono hext
  body loop hl hk hne := (h.body loop hl hk hne).mono hext

def Orderly (graph : WorkflowGraph) (trigger : GraphNode) (table : StepTable) : Prop :=
  ∀ row ∈ table.rows, Admissible graph trigger table row.toStepKey

section Rows

variable {graph : WorkflowGraph} {trigger : GraphNode} {table table' : StepTable}

/-- A table stays orderly if the keys it gains are admissible. -/
theorem Orderly.extend (ho : Orderly graph trigger table) (hext : table.Extends table')
    (hnew : ∀ row ∈ table'.rows, (∃ old ∈ table.rows, old.toStepKey = row.toStepKey) ∨
      Admissible graph trigger table row.toStepKey) : Orderly graph trigger table' := by
  intro row hr
  rcases hnew row hr with ⟨old, ho', hk⟩ | ha
  · exact hk ▸ (ho old ho').mono hext
  · exact ha.mono hext

/-- The gate of a settled row: a batch step decides one side of its loop. -/
theorem decidesEdge_iff {row : StepRecord} (hr : row ∈ table.rows) {edge : GraphEdge} :
    decidesEdge (deriveLoops graph) row.toStepKey table.view edge = true ↔
      ((∃ loop ∈ deriveLoops graph, row.nodeId = loop.batchNodeId) →
        (classifyEdge edge (deriveLoops graph) = .exit ↔ isTerminalStep row.summary = true)) := by
  unfold decidesEdge batchStepOf
  by_cases hb : ∃ loop ∈ deriveLoops graph, row.nodeId = loop.batchNodeId
  · have hany : ((deriveLoops graph).any fun loop => loop.batchNodeId = row.nodeId) = true := by
      obtain ⟨loop, hl, hk⟩ := hb
      exact List.any_eq_true.mpr ⟨loop, hl, by simp [hk]⟩
    simp only [hany, if_true, view_of_mem hr, hb, true_imp_iff, batchStepDecides]
    cases isTerminalStep row.summary <;> simp
  · have hany : ¬ ((deriveLoops graph).any fun loop => loop.batchNodeId = row.nodeId) = true := by
      rw [List.any_eq_true]
      rintro ⟨loop, hl, hk⟩
      exact hb ⟨loop, hl, (by simpa using hk : _ = _).symm⟩
    simp only [hany, Bool.false_eq_true, if_false, hb, false_imp_iff]

end Rows

namespace Executable

variable {graph : WorkflowGraph} {trigger : GraphNode} (h : Executable graph trigger)
  {table table' : StepTable} {row : StepRecord}

include h

/-- **The planner considers admissible steps only.** -/
theorem admissible_of_considers (ho : Orderly graph trigger table) (hr : row ∈ table.rows)
    (hs : row.Settled) {key : StepKey}
    (hc : Considers graph (deriveLoops graph) row.toStepKey table.view key) :
    Admissible graph trigger table key := by
  obtain ⟨edge, hout, hdec, rfl⟩ := hc
  obtain ⟨he, hf⟩ := List.mem_filter.mp hout
  have hf : edge.from = row.nodeId := by simpa using hf
  have ha := ho row hr
  have hreach : edge.to ∈ reachableFrom graph trigger.id :=
    Executable.reachable_edge ha.reachable ⟨edge, he, hf, rfl⟩
  rw [decidesEdge_iff hr] at hdec
  -- a settled row in a loop whose step is not the last pass entered its pass
  have hpass : ∀ loop ∈ deriveLoops graph, edge.from ∈ loop.memberIds →
      classifyEdge edge (deriveLoops graph) ≠ .exit →
      table.Continues loop.batchNodeId row.iteration := by
    intro loop hl hmem hne
    by_cases hhead : edge.from = loop.batchNodeId
    · have hterm : isTerminalStep row.summary = false := by
        by_contra ht
        exact hne ((hdec ⟨loop, hl, hf ▸ hhead⟩).mpr (by simpa using ht))
      exact ⟨row, hr, by rw [← hhead, hf], hs, hterm⟩
    · exact ha.body loop hl (hf ▸ hmem) (hf ▸ hhead)
  have hshape := h.edgeShape he
  generalize classifyEdge edge (deriveLoops graph) = edgeClass at hshape hpass ⊢
  cases hshape with
  | plain source target =>
    refine ⟨hreach, fun _ => ?_, fun loop hl ht => ?_, fun loop hl ht => absurd ht (target loop hl)⟩
    · exact ha.plain (hf ▸ source)
    · exact absurd (h.mem_of_eq_head hl ht) (target loop hl)
  | entry loop mem source target =>
    refine ⟨hreach, fun _ => rfl, fun _ _ _ i hi => (Nat.succ_ne_zero i hi.symm).elim, ?_⟩
    intro loop' hl' ht hne
    have : loop' = loop := h.loop_unique hl' mem ht (h.mem_of_eq_head mem target)
    exact absurd (this ▸ target) hne
  | intra loop mem source target body =>
    refine ⟨hreach, fun hout => absurd target (hout loop mem), fun loop' hl' ht => ?_, ?_⟩
    · exact absurd ht (h.not_mem_of_ne_head mem hl' target body)
    · intro loop' hl' ht _
      rw [h.loop_unique hl' mem ht target]
      exact hpass loop mem source (by simp)
  | back loop mem source target backEdge =>
    refine ⟨hreach, fun hout => ?_, fun loop' hl' ht i hi => ?_, fun loop' hl' ht hne => ?_⟩
    · exact absurd (h.mem_of_eq_head mem target) (hout loop mem)
    · obtain rfl : row.iteration = i := Nat.succ_injective hi
      have : loop' = loop := h.loop_unique hl' mem (h.mem_of_eq_head hl' ht)
        (h.mem_of_eq_head mem target)
      exact this ▸ hpass loop mem source (by simp)
    · have : loop' = loop := h.loop_unique hl' mem ht (h.mem_of_eq_head mem target)
      exact absurd (this ▸ target) hne
  | exit loop mem source target =>
    refine ⟨hreach, fun _ => rfl, fun _ _ _ i hi => (Nat.succ_ne_zero i hi.symm).elim, ?_⟩
    exact fun loop' hl' ht hne => absurd (target loop' hl' ht) hne

/-! ## The passes of a loop are written in order -/

section Passes

variable {loop : WorkflowLoop} {i j t t' : ℕ}

omit h in
/-- A pass was entered only after every pass before it went on. -/
theorem continues_of_row (ho : Orderly graph trigger table) (hl : loop ∈ deriveLoops graph)
    (hr : row ∈ table.rows) (hk : row.toStepKey = ⟨loop.batchNodeId, i⟩) (hj : j < i) :
    table.Continues loop.batchNodeId j := by
  induction i generalizing row with
  | zero => omega
  | succ i ih =>
    have hc := (ho row hr).head loop hl (by rw [hk]) i (by rw [hk])
    rcases Nat.lt_succ_iff_lt_or_eq.mp hj with hj | rfl
    · obtain ⟨row', hr', hk', -, -⟩ := hc
      exact ih hr' hk' hj
    · exact hc

omit h in
theorem le_of_ends (ho : Orderly graph trigger table) (hl : loop ∈ deriveLoops graph)
    (he : table.Ends loop.batchNodeId t) (hr : row ∈ table.rows)
    (hk : row.toStepKey = ⟨loop.batchNodeId, i⟩) : i ≤ t := by
  by_contra hlt
  exact (continues_of_row ho hl hr hk (not_le.mp hlt)).not_ends he

omit h in
/-- **A loop has one last pass.** -/
theorem ends_unique (ho : Orderly graph trigger table) (hl : loop ∈ deriveLoops graph)
    (he : table.Ends loop.batchNodeId t) (he' : table.Ends loop.batchNodeId t') : t = t' := by
  obtain ⟨row, hr, hk, -⟩ := id he
  obtain ⟨row', hr', hk', -⟩ := id he'
  exact le_antisymm (le_of_ends ho hl he' hr hk) (le_of_ends ho hl he hr' hk')

omit h in
/-- The ledger reads off the last pass. -/
theorem terminalIteration_eq_some (ho : Orderly graph trigger table)
    (hl : loop ∈ deriveLoops graph) :
    table.terminalIteration loop.batchNodeId = some t ↔ table.Ends loop.batchNodeId t := by
  unfold terminalIteration loadTerminalIterations
  constructor
  · intro ht
    split at ht
    · rename_i step hstep
      obtain ⟨-, row, hr, hn, rfl, -⟩ := loadLatestStepSummaries_eq_some.mp hstep
      split_ifs at ht with hterm
      obtain rfl : row.iteration = t := Option.some.inj ht
      exact ⟨row, hr, by rw [← hn], hterm⟩
    · cases ht
  · rintro ⟨row, hr, hk, hterm⟩
    have hlatest : table.loadLatestStepSummaries [loop.batchNodeId] loop.batchNodeId =
        some row.summary := by
      refine loadLatestStepSummaries_eq_some.mpr
        ⟨by simp, row, hr, by rw [hk], rfl, fun row' hr' hn => ?_⟩
      have hk' : row'.toStepKey = ⟨loop.batchNodeId, row'.iteration⟩ := by rw [← hn]
      rw [hk]
      exact le_of_ends ho hl ⟨row, hr, hk, hterm⟩ hr' hk'
    have hi : row.summary.iteration = t := by
      change row.toStepKey.iteration = t
      rw [hk]
    rw [hlatest]
    simp [hterm, hi]

end Passes

/-- Later tables extend the view the planner took of earlier ones. -/
theorem viewExtends {terminals terminals' : StepTable} (hot : Orderly graph trigger terminals)
    (hot' : Orderly graph trigger terminals') (ht : terminals.Extends terminals')
    (hext : table.Extends table') :
    ViewExtends graph (deriveLoops graph) table.view table'.view terminals.terminalIteration
      terminals'.terminalIteration where
  step id step hs hset := by
    obtain ⟨row, hf, rfl⟩ := Option.map_eq_some_iff.mp hs
    have hid : stepKeyId row.toStepKey = id := by simpa using List.find?_some hf
    rw [← hid]
    exact view_of_mem (hext.settled (List.mem_of_find?_eq_some hf) hset)
  terminal edge he hx t hterm := by
    have hshape := h.edgeShape he
    rw [hx] at hshape
    cases hshape with
    | exit loop mem source target =>
      rw [source] at hterm ⊢
      exact (terminalIteration_eq_some hot' mem).mpr
        (((terminalIteration_eq_some hot mem).mp hterm).mono ht)

/-! ## Body steps -/

section Body

variable {loop : WorkflowLoop} {candidate : StepKey}

/-- Only intra edges lead to a body node. -/
theorem intra_of_body {edge : GraphEdge} (he : edge ∈ graph.edges)
    (hl : loop ∈ deriveLoops graph) (ht : edge.to ∈ loop.memberIds)
    (hne : edge.to ≠ loop.batchNodeId) :
    classifyEdge edge (deriveLoops graph) = .intra ∧ edge.from ∈ loop.memberIds := by
  have hshape := h.edgeShape he
  generalize classifyEdge edge (deriveLoops graph) = edgeClass at hshape ⊢
  cases hshape with
  | plain source target => exact absurd ht (target loop hl)
  | entry loop' mem source target => exact absurd target (h.not_mem_of_ne_head hl mem ht hne)
  | intra loop' mem source target body => exact ⟨rfl, h.loop_unique mem hl target ht ▸ source⟩
  | back loop' mem source target => exact absurd target (h.not_mem_of_ne_head hl mem ht hne)
  | exit loop' mem source target => exact absurd (target loop hl ht) hne

theorem exists_edge_into_body (hl : loop ∈ deriveLoops graph) {x : String}
    (hx : x ∈ loop.memberIds) (hne : x ≠ loop.batchNodeId) : ∃ edge ∈ graph.edges, edge.to = x := by
  rcases (h.forward_from_head hl hx).cases_tail with heq | ⟨y, -, edge, he, -, -, ht⟩
  · exact absurd heq hne
  · exact ⟨edge, he, ht⟩

theorem isPastLoopEnd_iff :
    isPastLoopEnd (deriveLoops graph) candidate table.view = true ↔
      ∃ loop ∈ deriveLoops graph, candidate.nodeId ∈ loop.memberIds ∧
        candidate.nodeId ≠ loop.batchNodeId ∧
        table.Ends loop.batchNodeId candidate.iteration := by
  unfold isPastLoopEnd
  constructor
  · intro hp
    split at hp
    · cases hp
    · rename_i loop hloop
      obtain ⟨hl, hm⟩ := h.loopOf_eq_some.mp hloop
      split_ifs at hp with hhead
      split at hp
      · cases hp
      · rename_i step hstep
        obtain ⟨row, hr, hk, rfl⟩ := view_eq_some.mp hstep
        exact ⟨loop, hl, hm, hhead, row, hr, hk, hp⟩
  · rintro ⟨loop, hl, hm, hhead, row, hr, hk, ht⟩
    have hstep := view_of_mem hr
    rw [hk] at hstep
    simp [h.loopOf_eq_some.mpr ⟨hl, hm⟩, hhead, hstep, ht]

theorem not_isPastLoopEnd (ha : Admissible graph trigger table candidate) :
    isPastLoopEnd (deriveLoops graph) candidate table.view = false := by
  by_contra hp
  obtain ⟨loop, hl, hm, hne, he⟩ := h.isPastLoopEnd_iff.1 (by simpa using hp)
  exact (ha.body loop hl hm hne).not_ends he

omit h in
/-- A settled body step, or a batch step that was not the last, shows that the pass went on. -/
theorem continues_of_settled (ho : Orderly graph trigger table) (hl : loop ∈ deriveLoops graph)
    (hr : row ∈ table.rows) (hs : row.Settled) (hm : row.nodeId ∈ loop.memberIds)
    (he : ¬ table.Ends loop.batchNodeId row.iteration) :
    table.Continues loop.batchNodeId row.iteration := by
  by_cases hhead : row.nodeId = loop.batchNodeId
  · have hk : row.toStepKey = ⟨loop.batchNodeId, row.iteration⟩ := by rw [← hhead]
    refine ⟨row, hr, hk, hs, ?_⟩
    by_contra ht
    exact he ⟨row, hr, hk, by simpa using ht⟩
  · exact (ho row hr).body loop hl hm hhead

end Body

/-! ## Fates are final -/

end Executable

/-- The fate of a candidate when the last passes are read from `terminals` and the rows from
`table`. -/
def fateFrom (graph : WorkflowGraph) (terminals table : StepTable) (candidate : StepKey) : Fate :=
  decideNodeFate graph (deriveLoops graph) candidate table.view terminals.terminalIteration

/-- The fate the planner of `settled` decides from the rows it loads. -/
def plannerFate (graph : WorkflowGraph) (terminals table : StepTable) (settled candidate : StepKey) :
    Fate :=
  let terminalIterations := planTerminals graph terminals settled
  decideNodeFate graph (deriveLoops graph) candidate
    (table.loadStepSummariesByKeys
      (decisionKeys graph (deriveLoops graph) settled terminalIterations))
    terminalIterations

/-- An edge leads from the step `settled` to the step `candidate`. -/
def LeadsTo (graph : WorkflowGraph) (settled candidate : StepKey) : Prop :=
  ∃ edge ∈ outgoingEdges graph settled.nodeId,
    targetKey edge (classifyEdge edge (deriveLoops graph)) settled = candidate

theorem plannerFate_eq {graph : WorkflowGraph} {terminals table : StepTable}
    {settled candidate : StepKey} (h : LeadsTo graph settled candidate) :
    plannerFate graph terminals table settled candidate =
      fateFrom graph terminals table candidate := by
  obtain ⟨edge, he, rfl⟩ := h
  refine decideNodeFate_congr he (fun inEdge hin hx => planTerminals_apply he hin hx)
    fun key hk => ?_
  rw [loadStepSummariesByKeys_apply hk, view_apply]

namespace Executable

variable {graph : WorkflowGraph} {trigger : GraphNode} (h : Executable graph trigger)
  {table table' terminals terminals' : StepTable} {candidate : StepKey}

include h

/-- **A fate once decided does not change.** -/
theorem fate_stable (ho : Orderly graph trigger table) (hot : Orderly graph trigger terminals)
    (hot' : Orderly graph trigger terminals') (ht : terminals.Extends terminals')
    (hext : table.Extends table') (hd : fateFrom graph terminals table candidate ≠ .undecidable) :
    fateFrom graph terminals' table' candidate = fateFrom graph terminals table candidate := by
  unfold fateFrom decideNodeFate at hd ⊢
  by_cases hp : isPastLoopEnd (deriveLoops graph) candidate table.view = true
  · obtain ⟨loop, hl, hm, hne, he⟩ := h.isPastLoopEnd_iff.1 hp
    have hp' : isPastLoopEnd (deriveLoops graph) candidate table'.view = true :=
      h.isPastLoopEnd_iff.2 ⟨loop, hl, hm, hne, he.mono hext⟩
    rw [if_pos hp, if_pos hp']
  · rw [if_neg hp] at hd
    have hin : ∀ edge ∈ incomingEdges graph candidate.nodeId, edge ∈ graph.edges :=
      fun edge he => (List.mem_filter.mp he).1
    have hp' : ¬ isPastLoopEnd (deriveLoops graph) candidate table'.view = true := by
      intro hp'
      obtain ⟨loop, hl, hm, hne, he'⟩ := h.isPastLoopEnd_iff.1 hp'
      -- a source of the body step has settled, so its pass went on for good
      obtain ⟨edge, he, hto⟩ := h.exists_edge_into_body hl hm hne
      obtain ⟨hclass, hfrom⟩ := h.intra_of_body he hl (hto ▸ hm) (hto ▸ hne)
      have hr : (sourceRow edge (classifyEdge edge (deriveLoops graph)) candidate
          (terminals.terminalIteration edge.from)).Resolved table.view := by
        by_contra hr
        exact hd (judge_eq_undecidable.mpr
          ⟨edge, List.mem_filter.mpr ⟨he, by simpa using hto⟩, hr⟩)
      rw [hclass] at hr
      obtain ⟨row, hrow, hk, hset⟩ := resolved_row_iff.mp hr
      have hnode : row.nodeId = edge.from := by rw [hk]
      have hiter : row.iteration = candidate.iteration := by rw [hk]
      have hc := continues_of_settled ho hl hrow hset (hnode ▸ hfrom) fun hends =>
        hp (h.isPastLoopEnd_iff.2 ⟨loop, hl, hm, hne, hiter ▸ hends⟩)
      exact (hc.mono hext).not_ends (hiter ▸ he')
    rw [if_neg hp, if_neg hp']
    exact judge_stable (h.viewExtends hot hot' ht hext) hin hd

end Executable

/-! ## Steps that are due -/

/-- The planner creates a row for the candidate. -/
def Fate.Creates (fate : Fate) : Prop := fate = .queued ∨ fate = .skipped

def sourceAt (graph : WorkflowGraph) (terminals : StepTable) (candidate : StepKey)
    (edge : GraphEdge) : SourceRow :=
  sourceRow edge (classifyEdge edge (deriveLoops graph)) candidate
    (terminals.terminalIteration edge.from)

/-- The step is admissible, and its fate is to get a row. -/
def Due (graph : WorkflowGraph) (trigger : GraphNode) (table : StepTable) (candidate : StepKey) :
    Prop :=
  Admissible graph trigger table candidate ∧ (fateFrom graph table table candidate).Creates

/-- A row is created once every source is resolved and one applies. -/
theorem creates_iff {graph : WorkflowGraph} {terminals table : StepTable} {candidate : StepKey} :
    (fateFrom graph terminals table candidate).Creates ↔
      isPastLoopEnd (deriveLoops graph) candidate table.view = false ∧
      (∀ edge ∈ graph.edges, edge.to = candidate.nodeId →
        (sourceAt graph terminals candidate edge).Resolved table.view) ∧
      ∃ edge ∈ graph.edges, edge.to = candidate.nodeId ∧
        ∃ key, sourceAt graph terminals candidate edge = .row key := by
  unfold fateFrom decideNodeFate
  split_ifs with hp
  · simp [hp, Fate.Creates]
  · set fate := judge (deriveLoops graph) candidate table.view terminals.terminalIteration
      (incomingEdges graph candidate.nodeId) 0 false with hfate
    have hcreates : fate.Creates ↔ fate ≠ .undecidable ∧ fate ≠ .outside := by
      cases fate <;> simp [Fate.Creates]
    have hund : fate ≠ .undecidable ↔ ∀ edge ∈ graph.edges, edge.to = candidate.nodeId →
        (sourceAt graph terminals candidate edge).Resolved table.view := by
      rw [hfate, ne_eq, judge_eq_undecidable]
      simp [incomingEdges, sourceAt]
    rw [hcreates, ← hund]
    simp only [hp, true_and]
    refine and_congr_right fun hne => ?_
    rw [ne_eq, judge_eq_outside hne]
    simp [incomingEdges, sourceAt]

namespace Executable

variable {graph : WorkflowGraph} {trigger : GraphNode} (h : Executable graph trigger)
  {table table' : StepTable} {candidate : StepKey}

include h

section Orderly

variable (ho : Orderly graph trigger table) {edge : GraphEdge}
include ho

/-- The pass of an applicable source with a settled row went on, unless it is the last pass. -/
theorem continues_of_source {loop : WorkflowLoop}
    (hl : loop ∈ deriveLoops graph) (he : edge ∈ graph.edges)
    (hto : edge.to = candidate.nodeId) {row : StepRecord} (hr : row ∈ table.rows)
    (hs : row.Settled) (hsrc : sourceAt graph table candidate edge = .row row.toStepKey) {i : ℕ}
    (hi : candidate.nodeId = loop.batchNodeId ∧ candidate.iteration = i + 1 ∨
      candidate.nodeId ∈ loop.memberIds ∧ candidate.nodeId ≠ loop.batchNodeId ∧
        candidate.iteration = i) (hne : ¬ table.Ends loop.batchNodeId i) :
    table.Continues loop.batchNodeId i := by
  rcases hi with ⟨hnode, hiter⟩ | ⟨hmem, hnh, hiter⟩
  · -- only the back-edge has a source for a later pass of the head
    have hshape := h.edgeShape he
    unfold sourceAt at hsrc
    generalize classifyEdge edge (deriveLoops graph) = edgeClass at hshape hsrc
    cases hshape with
    | plain source target =>
      exact absurd (h.mem_of_eq_head hl (hto.trans hnode)) (target loop hl)
    | intra loop' mem source target body =>
      exact absurd (hto.trans hnode) (h.not_mem_of_ne_head mem hl target body)
    | entry => simp [sourceRow, hiter] at hsrc
    | exit => simp [sourceRow, hiter] at hsrc
    | back loop' mem source target backEdge =>
      have : loop' = loop := loop_eq_of_head mem hl (target.symm.trans (hto.trans hnode))
      subst this
      have hk : row.toStepKey = ⟨edge.from, i⟩ := by simpa [sourceRow, hiter, eq_comm] using hsrc
      have hn : row.nodeId = edge.from := by rw [hk]
      have hri : row.iteration = i := by rw [hk]
      exact hri ▸ continues_of_settled ho hl hr hs (hn ▸ source) (hri ▸ hne)
  · obtain ⟨hclass, hfrom⟩ := h.intra_of_body he hl (hto ▸ hmem) (hto ▸ hnh)
    rw [sourceAt, hclass] at hsrc
    have hk : row.toStepKey = ⟨edge.from, candidate.iteration⟩ := by
      simpa [sourceRow, eq_comm] using hsrc
    have hn : row.nodeId = edge.from := by rw [hk]
    have hri : row.iteration = i := by rw [hk, ← hiter]
    exact hri ▸ continues_of_settled ho hl hr hs (hn ▸ hfrom) (hri ▸ hne)

/-- **A source considers its targets**: the planner of a settled source of an admissible step
reaches that step. -/
theorem considers_source (ha : Admissible graph trigger table candidate) (he : edge ∈ graph.edges)
    (hto : edge.to = candidate.nodeId) {row : StepRecord} (hr : row ∈ table.rows)
    (hsrc : sourceAt graph table candidate edge = .row row.toStepKey) :
    Considers graph (deriveLoops graph) row.toStepKey table.view candidate := by
  have hshape := h.edgeShape he
  unfold sourceAt at hsrc
  obtain ⟨node, iter⟩ := candidate
  obtain rfl : edge.to = node := hto
  have hfrom : edge.from = row.nodeId := by
    cases hc : classifyEdge edge (deriveLoops graph) <;> simp only [hc, sourceRow] at hsrc <;>
      (try split_ifs at hsrc) <;> (try split at hsrc) <;>
      first
        | exact congrArg StepKey.nodeId (SourceRow.row.inj hsrc)
        | cases hsrc
  refine ⟨edge, List.mem_filter.mpr ⟨he, by simpa using hfrom⟩, ?_, ?_⟩
  · rw [decidesEdge_iff hr]
    rintro ⟨loop, hl, hhead⟩
    -- the source is a batch step: it decides the side of its loop that the candidate is on
    generalize classifyEdge edge (deriveLoops graph) = edgeClass at hshape hsrc ⊢
    cases hshape with
    | plain source => exact absurd (h.mem_of_eq_head hl (hfrom.trans hhead)) (source loop hl)
    | entry _ _ source => exact absurd (h.mem_of_eq_head hl (hfrom.trans hhead)) (source loop hl)
    | intra loop' mem source target body =>
      have : loop' = loop := h.loop_unique mem hl source (h.mem_of_eq_head hl (hfrom.trans hhead))
      subst this
      have hk : row.toStepKey = ⟨loop'.batchNodeId, iter⟩ := by
        rw [← hhead, ← hfrom]
        simpa [sourceRow, eq_comm] using hsrc
      refine iff_of_false (by simp) fun ht => ?_
      exact (ha.body loop' mem target body).not_ends ⟨row, hr, hk, ht⟩
    | back loop' mem source target =>
      have : loop' = loop := h.loop_unique mem hl source (h.mem_of_eq_head hl (hfrom.trans hhead))
      subst this
      refine iff_of_false (by simp) fun ht => ?_
      obtain ⟨i, rfl⟩ : ∃ i, iter = i + 1 := by
        cases iter with
        | zero => simp [sourceRow] at hsrc
        | succ i => exact ⟨i, rfl⟩
      have hk : row.toStepKey = ⟨loop'.batchNodeId, i⟩ := by
        rw [← hhead, ← hfrom]
        simpa [sourceRow, eq_comm] using hsrc
      exact (ha.head loop' mem target i rfl).not_ends ⟨row, hr, hk, ht⟩
    | exit loop' mem source target =>
      refine iff_of_true rfl ?_
      cases hterm : table.terminalIteration edge.from with
      | none => simp only [sourceRow, hterm] at hsrc; split_ifs at hsrc
      | some t =>
        rw [source] at hterm
        obtain ⟨row', hr', hk', ht'⟩ := (terminalIteration_eq_some ho mem).mp hterm
        have hk : row.toStepKey = ⟨loop'.batchNodeId, t⟩ := by
          simp only [sourceRow, source, hterm] at hsrc
          split_ifs at hsrc
          exact (SourceRow.row.inj hsrc).symm
        rwa [eq_of_key hr hr' (hk.trans hk'.symm)]
  · cases hc : classifyEdge edge (deriveLoops graph) with
    | back =>
      simp only [hc, sourceRow] at hsrc
      split_ifs at hsrc with hz
      have hi := congrArg StepKey.iteration (SourceRow.row.inj hsrc)
      simp only [targetKey, StepKey.mk.injEq, true_and]
      simp only at hi hz
      omega
    | entry =>
      simp only [hc, sourceRow] at hsrc
      split_ifs at hsrc with hz
      simp only [targetKey, StepKey.mk.injEq, true_and]
      omega
    | exit =>
      simp only [hc, sourceRow] at hsrc
      split_ifs at hsrc with hz
      simp only [targetKey, StepKey.mk.injEq, true_and]
      omega
    | intra =>
      simp only [hc, sourceRow] at hsrc
      simp only [targetKey, ← SourceRow.row.inj hsrc]
    | plain =>
      simp only [hc, sourceRow] at hsrc
      simp only [targetKey, ← SourceRow.row.inj hsrc]

/-- A step whose sources are resolved was admissible at once if it ever is. -/
theorem admissible_of_creates (hext : table.Extends table')
    (hc : (fateFrom graph table table candidate).Creates)
    (ha : Admissible graph trigger table' candidate) :
    Admissible graph trigger table candidate := by
  obtain ⟨-, hres, edge, he, hto, key, hkey⟩ := creates_iff.mp hc
  have hr := hres edge he hto
  rw [hkey] at hr
  obtain ⟨row, hrow, rfl, hs⟩ := resolved_row_iff.mp hr
  refine ⟨ha.reachable, ha.plain, fun loop hl hnode i hi => ?_, fun loop hl hmem hne => ?_⟩
  · refine h.continues_of_source ho hl he hto hrow hs hkey (.inl ⟨hnode, hi⟩) fun hends => ?_
    exact (ha.head loop hl hnode i hi).not_ends (hends.mono hext)
  · refine h.continues_of_source ho hl he hto hrow hs hkey (.inr ⟨hmem, hne, rfl⟩) fun hends => ?_
    exact (ha.body loop hl hmem hne).not_ends (hends.mono hext)

/-- A source that is resolved in a later table by an old row was resolved before. -/
theorem resolved_of_old (ho' : Orderly graph trigger table') (he : edge ∈ graph.edges)
    (hr : (sourceAt graph table' candidate edge).Resolved table'.view)
    (hold : ∀ row ∈ table'.rows, row.Settled →
      sourceAt graph table' candidate edge = .row row.toStepKey → row ∈ table.rows) :
    (sourceAt graph table candidate edge).Resolved table.view := by
  have hsame : sourceAt graph table candidate edge = sourceAt graph table' candidate edge := by
    have hshape := h.edgeShape he
    unfold sourceAt at hr hold ⊢
    generalize classifyEdge edge (deriveLoops graph) = edgeClass at hshape hr hold ⊢
    cases hshape with
    | exit loop mem source target =>
      simp only [sourceRow] at hr hold ⊢
      split_ifs at hr hold ⊢ with hi
      · rfl
      · cases hterm : table'.terminalIteration edge.from with
        | none => simp [hterm] at hr
        | some t =>
          -- the row of the last pass is an old one, so the loop had ended before
          rw [source] at hterm
          obtain ⟨row, hrow, hk, hends⟩ := (terminalIteration_eq_some ho' mem).mp hterm
          have hin := hold row hrow (settled_of_isTerminalStep hends)
            (by simp [source, hterm, hk])
          have hterm' : table.terminalIteration loop.batchNodeId = some t :=
            (terminalIteration_eq_some ho mem).mpr ⟨row, hin, hk, hends⟩
          rw [source, hterm']
    | _ => rfl
  rw [hsame]
  cases hsrc : sourceAt graph table' candidate edge with
  | none => exact SourceRow.resolved_none _
  | pending => rw [hsrc] at hr; exact absurd hr (SourceRow.not_resolved_pending _)
  | row key =>
    rw [hsrc] at hr hold
    obtain ⟨row, hrow, hk, hs⟩ := resolved_row_iff.mp hr
    exact resolved_row_iff.mpr ⟨row, hold row hrow hs (by rw [hk]), hk, hs⟩

/-- **A step becomes due when one of its sources settles.** -/
theorem exists_newly_settled (ho' : Orderly graph trigger table') (hext : table.Extends table')
    (hdue : Due graph trigger table' candidate) (hnot : ¬ Due graph trigger table candidate) :
    ∃ row ∈ table'.rows, row.Settled ∧ row ∉ table.rows ∧
      Considers graph (deriveLoops graph) row.toStepKey table'.view candidate := by
  obtain ⟨ha, hc⟩ := hdue
  have hundecided : fateFrom graph table table candidate = .undecidable := by
    by_contra hd
    have hst := h.fate_stable ho ho ho' hext hext hd
    rw [hst] at hc
    exact hnot ⟨h.admissible_of_creates ho hext hc ha, hc⟩
  obtain ⟨hp', hres', -⟩ := creates_iff.mp hc
  by_contra hnone
  push Not at hnone
  have hopen : ∃ edge ∈ graph.edges, edge.to = candidate.nodeId ∧
      ¬ (sourceAt graph table candidate edge).Resolved table.view := by
    unfold fateFrom decideNodeFate at hundecided
    split_ifs at hundecided
    obtain ⟨edge, hin, hr⟩ := judge_eq_undecidable.mp hundecided
    obtain ⟨he, hto⟩ := List.mem_filter.mp hin
    exact ⟨edge, he, by simpa using hto, hr⟩
  obtain ⟨edge, he, hto, hr⟩ := hopen
  refine hr (h.resolved_of_old ho ho' he (hres' edge he hto) fun row hrow hs hsrc => ?_)
  by_contra hnew
  exact hnone row hrow hs hnew (h.considers_source ho' ha he hto hrow hsrc)

end Orderly

end Executable

end N8n.Engine
