import N8n.Engine.Rows

/-!
# Counting the steps an execution owes

`countExpectedSettledSteps` is a formula over the graph and the last pass of each loop. It counts
the steps that an orderly table may have a row for, so a table holds at most as many rows.

## Main definitions

* `reachableNodeIds`: the node ids of the steps an execution runs
* `Owed`: a step the execution owes, given the last passes

## Main results

* `Executable.exists_owed`: the formula counts the owed steps
* `Executable.owed_of_admissible`: an admissible step is owed, so every row is
* `Executable.rows_le_expected`: an execution has no more rows than it owes
-/

namespace N8n.Engine

def reachableNodeIds (graph : WorkflowGraph) (trigger : GraphNode) : List String :=
  (trigger.id :: getDescendantNodeIds graph trigger.id).foldl pushNew []

theorem mem_reachableNodeIds {graph : WorkflowGraph} {trigger : GraphNode} {x : String} :
    x ∈ reachableNodeIds graph trigger ↔ x ∈ reachableFrom graph trigger.id := by
  rw [reachableNodeIds, mem_foldl_pushNew]
  simp [reachableFrom]

theorem nodup_reachableNodeIds (graph : WorkflowGraph) (trigger : GraphNode) :
    (reachableNodeIds graph trigger).Nodup := nodup_foldl_pushNew List.nodup_nil _

/-- The execution owes the step: it is the only step of a node outside the loops, a pass of a batch
node up to the last one, or a body step of a pass before the last one. -/
structure Owed (graph : WorkflowGraph) (trigger : GraphNode) (terminals : String → Option ℕ)
    (key : StepKey) : Prop where
  reachable : key.nodeId ∈ reachableFrom graph trigger.id
  plain : (∀ loop ∈ deriveLoops graph, key.nodeId ∉ loop.memberIds) → key.iteration = 0
  pass : ∀ loop ∈ deriveLoops graph, key.nodeId ∈ loop.memberIds →
    ∃ t, terminals loop.batchNodeId = some t ∧
      (key.nodeId = loop.batchNodeId → key.iteration ≤ t) ∧
      (key.nodeId ≠ loop.batchNodeId → key.iteration < t)

/-! ## The steps of one loop -/

/-- The steps of a loop whose last pass is `t`. -/
def loopKeys (loop : WorkflowLoop) (t : ℕ) : List StepKey :=
  (List.range (t + 1)).map (StepKey.mk loop.batchNodeId) ++
    (loop.memberIds.erase loop.batchNodeId).flatMap fun m => (List.range t).map (StepKey.mk m)

section LoopKeys

variable {loop : WorkflowLoop} {t : ℕ}

theorem mem_loopKeys (hd : loop.memberIds.Nodup) {key : StepKey} :
    key ∈ loopKeys loop t ↔ (key.nodeId = loop.batchNodeId ∧ key.iteration ≤ t) ∨
      (key.nodeId ∈ loop.memberIds ∧ key.nodeId ≠ loop.batchNodeId ∧ key.iteration < t) := by
  obtain ⟨node, i⟩ := key
  simp only [loopKeys, List.mem_append, List.mem_map, List.mem_range, List.mem_flatMap,
    hd.mem_erase_iff, StepKey.mk.injEq]
  constructor
  · rintro (⟨j, hj, rfl, rfl⟩ | ⟨m, ⟨hne, hm⟩, j, hj, rfl, rfl⟩)
    · exact .inl ⟨rfl, Nat.lt_succ_iff.mp hj⟩
    · exact .inr ⟨hm, hne, hj⟩
  · rintro (⟨rfl, hi⟩ | ⟨hm, hne, hi⟩)
    · exact .inl ⟨i, Nat.lt_succ_iff.mpr hi, rfl, rfl⟩
    · exact .inr ⟨node, ⟨hne, hm⟩, i, hi, rfl, rfl⟩

theorem length_loopKeys (hm : loop.batchNodeId ∈ loop.memberIds) :
    (loopKeys loop t).length = t + 1 + t * (loop.memberIds.length - 1) := by
  simp [loopKeys, List.length_flatMap, List.length_erase_of_mem hm, Nat.mul_comm t]

theorem nodup_loopKeys (hd : loop.memberIds.Nodup) : (loopKeys loop t).Nodup := by
  have hinj : ∀ b, Function.Injective (StepKey.mk b) := fun b i j h => (StepKey.mk.inj h).2
  refine List.Nodup.append (List.nodup_range.map (hinj _)) ?_ ?_
  · rw [List.nodup_flatMap]
    refine ⟨fun m _ => List.nodup_range.map (hinj m), ?_⟩
    refine (hd.erase _).imp fun hne key hk hk' => ?_
    obtain ⟨i, -, rfl⟩ := List.mem_map.mp hk
    obtain ⟨j, -, hj⟩ := List.mem_map.mp hk'
    exact hne (StepKey.mk.inj hj).1.symm
  · intro key hk hk'
    obtain ⟨i, -, rfl⟩ := List.mem_map.mp hk
    obtain ⟨m, hm, hk'⟩ := List.mem_flatMap.mp hk'
    obtain ⟨j, -, hj⟩ := List.mem_map.mp hk'
    exact (hd.mem_erase_iff.mp hm).1 (StepKey.mk.inj hj).1

end LoopKeys

/-! ## The formula counts the owed steps -/

namespace Executable

variable {graph : WorkflowGraph} {trigger : GraphNode} (h : Executable graph trigger)
  {terminals : String → Option ℕ} {loops : List WorkflowLoop}

include h

/-- The loop over the loops adds the length of a list of their steps. -/
theorem countLoopSteps_eq_some (hd : loops.Nodup) (hsub : ∀ loop ∈ loops, loop ∈ deriveLoops graph)
    {expected expected' : ℕ} {members members' : List String}
    (hc : countLoopSteps terminals loops expected members = some (expected', members')) :
    (∀ x, x ∈ members' ↔ x ∈ members ∨ ∃ loop ∈ loops, x ∈ loop.memberIds) ∧
      ∃ keys : List StepKey, keys.Nodup ∧ expected' = expected + keys.length ∧
        ∀ key, key ∈ keys ↔ ∃ loop ∈ loops, ∃ t, terminals loop.batchNodeId = some t ∧
          key ∈ loopKeys loop t := by
  induction loops generalizing expected members with
  | nil =>
    obtain ⟨rfl, rfl⟩ := Prod.mk.inj (Option.some.inj hc)
    exact ⟨by simp, [], by simp⟩
  | cons loop loops ih =>
    obtain ⟨hnew, hd⟩ := List.nodup_cons.mp hd
    have hl := hsub loop List.mem_cons_self
    rw [countLoopSteps] at hc
    cases ht : terminals loop.batchNodeId with
    | none => simp [ht] at hc
    | some t =>
      simp only [ht] at hc
      obtain ⟨hmem, keys, hnd, hlen, hkeys⟩ :=
        ih hd (fun l hl => hsub l (List.mem_cons_of_mem _ hl)) hc
      refine ⟨fun x => ?_, loopKeys loop t ++ keys, ?_, ?_, fun key => ?_⟩
      · rw [hmem, mem_foldl_pushNew]
        simp [or_assoc]
      · refine (nodup_loopKeys (h.nodup_memberIds hl)).append hnd fun key hk hk' => ?_
        obtain ⟨loop', hl', t', -, hk'⟩ := (hkeys key).mp hk'
        have hin : ∀ l ∈ deriveLoops graph, ∀ s, key ∈ loopKeys l s → key.nodeId ∈ l.memberIds := by
          intro l hl s hks
          rcases (mem_loopKeys (h.nodup_memberIds hl)).mp hks with ⟨hk, -⟩ | ⟨hk, -⟩
          · exact h.mem_of_eq_head hl hk
          · exact hk
        have hl'' := hsub loop' (List.mem_cons_of_mem _ hl')
        exact hnew (h.loop_unique hl'' hl (hin _ hl'' _ hk') (hin _ hl _ hk) ▸ hl')
      · rw [hlen, List.length_append, length_loopKeys (h.head_mem hl)]
        omega
      · rw [List.mem_append, hkeys]
        constructor
        · rintro (hk | ⟨l, hl, hk⟩)
          · exact ⟨loop, List.mem_cons_self, t, ht, hk⟩
          · exact ⟨l, List.mem_cons_of_mem _ hl, hk⟩
        · rintro ⟨l, hl, s, hs, hk⟩
          rcases List.mem_cons.mp hl with rfl | hl
          · rw [ht] at hs
            exact .inl (Option.some.inj hs ▸ hk)
          · exact .inr ⟨l, hl, s, hs, hk⟩

omit h in
theorem foldl_count {members reachable : List String} (n : ℕ) :
    reachable.foldl (fun n nodeId => if nodeId ∈ members then n else n + 1) n =
      n + (reachable.filter fun nodeId => nodeId ∉ members).length := by
  induction reachable generalizing n with
  | nil => rfl
  | cons x reachable ih =>
    rw [List.foldl_cons, ih]
    by_cases hx : x ∈ members
    · simp [hx]
    · simp [hx, Nat.add_assoc, Nat.add_comm 1]

omit h in
/-- The count is undefined exactly while a loop that was asked about runs. -/
theorem exists_countLoopSteps (ht : ∀ loop ∈ loops, ∃ t, terminals loop.batchNodeId = some t)
    (expected : ℕ) (members : List String) :
    ∃ r, countLoopSteps terminals loops expected members = some r := by
  induction loops generalizing expected members with
  | nil => exact ⟨_, rfl⟩
  | cons loop loops ih =>
    obtain ⟨t, hterm⟩ := ht loop List.mem_cons_self
    rw [countLoopSteps, hterm]
    exact ih (fun l hl => ht l (List.mem_cons_of_mem _ hl)) _ _

omit h in
theorem exists_terminal_of_countLoopSteps {expected : ℕ} {members : List String}
    {r : ℕ × List String} (hc : countLoopSteps terminals loops expected members = some r) :
    ∀ loop ∈ loops, ∃ t, terminals loop.batchNodeId = some t := by
  induction loops generalizing expected members with
  | nil => simp
  | cons loop loops ih =>
    rw [countLoopSteps] at hc
    cases hterm : terminals loop.batchNodeId with
    | none => simp [hterm] at hc
    | some t =>
      simp only [hterm] at hc
      intro l hl
      rcases List.mem_cons.mp hl with rfl | hl
      · exact ⟨t, hterm⟩
      · exact ih hc l hl

/-- **The formula counts the owed steps.** -/
theorem exists_owed {n : ℕ}
    (hc : countExpectedSettledSteps (deriveLoops graph) (reachableNodeIds graph trigger) terminals =
      some n) :
    (∀ loop ∈ deriveLoops graph, loop.batchNodeId ∈ reachableFrom graph trigger.id →
      ∃ t, terminals loop.batchNodeId = some t) ∧
    ∃ keys : List StepKey, keys.Nodup ∧ keys.length = n ∧
      ∀ key, key ∈ keys ↔ Owed graph trigger terminals key := by
  obtain ⟨⟨expected, members⟩, hcl, hn⟩ := Option.map_eq_some_iff.mp hc
  set loops := (deriveLoops graph).filter fun loop =>
    loop.batchNodeId ∈ reachableNodeIds graph trigger with hloops
  have hmemloops : ∀ loop, loop ∈ loops ↔ loop ∈ deriveLoops graph ∧
      loop.batchNodeId ∈ reachableFrom graph trigger.id := by
    intro loop
    rw [hloops, List.mem_filter, decide_eq_true_eq, mem_reachableNodeIds]
  have hterm := exists_terminal_of_countLoopSteps hcl
  obtain ⟨hmem, keys, hnd, hlen, hkeys⟩ := h.countLoopSteps_eq_some
    ((nodup_deriveLoops graph).filter _) (fun loop hl => ((hmemloops loop).mp hl).1) hcl
  have hmem : ∀ x ∈ reachableFrom graph trigger.id,
      (x ∈ members ↔ ∃ loop ∈ deriveLoops graph, x ∈ loop.memberIds) := by
    intro x hx
    rw [hmem]
    constructor
    · rintro (hx' | ⟨loop, hl, hx'⟩)
      · cases hx'
      · exact ⟨loop, ((hmemloops loop).mp hl).1, hx'⟩
    · rintro ⟨loop, hl, hx'⟩
      exact .inr ⟨loop, (hmemloops loop).mpr
        ⟨hl, h.reachable_members hl hx' (h.head_mem hl) hx⟩, hx'⟩
  refine ⟨fun loop hl hr => hterm loop ((hmemloops loop).mpr ⟨hl, hr⟩), keys ++
    ((reachableNodeIds graph trigger).filter fun x => x ∉ members).map (StepKey.mk · 0),
    ?_, ?_, fun key => ?_⟩
  · refine hnd.append (((nodup_reachableNodeIds graph trigger).filter _).map
      fun a b hab => (StepKey.mk.inj hab).1) fun key hk hk' => ?_
    obtain ⟨loop, hl, t, -, hk⟩ := (hkeys key).mp hk
    obtain ⟨x, hx, rfl⟩ := List.mem_map.mp hk'
    obtain ⟨hx, hxm⟩ := List.mem_filter.mp hx
    have hl := ((hmemloops loop).mp hl).1
    refine (of_decide_eq_true hxm) ((hmem x (mem_reachableNodeIds.mp hx)).mpr ⟨loop, hl, ?_⟩)
    rcases (mem_loopKeys (h.nodup_memberIds hl)).mp hk with ⟨hk, -⟩ | ⟨hk, -⟩
    · exact h.mem_of_eq_head hl hk
    · exact hk
  · rw [List.length_append, List.length_map, ← hn]
    simp only
    rw [foldl_count, hlen]
    omega
  · rw [List.mem_append, hkeys, List.mem_map]
    constructor
    · rintro (⟨loop, hl, t, ht, hk⟩ | ⟨x, hx, rfl⟩)
      · obtain ⟨hl, hr⟩ := (hmemloops loop).mp hl
        have hk := (mem_loopKeys (h.nodup_memberIds hl)).mp hk
        have hin : key.nodeId ∈ loop.memberIds := by
          rcases hk with ⟨hk, -⟩ | ⟨hk, -⟩
          · exact h.mem_of_eq_head hl hk
          · exact hk
        refine ⟨h.reachable_members hl (h.head_mem hl) hin hr,
          fun hout => absurd hin (hout loop hl), fun loop' hl' hin' => ?_⟩
        rw [h.loop_unique hl' hl hin' hin]
        refine ⟨t, ht, fun heq => ?_, fun hne => ?_⟩
        · rcases hk with ⟨-, hi⟩ | ⟨-, hne, -⟩
          · exact hi
          · exact absurd heq hne
        · rcases hk with ⟨heq, -⟩ | ⟨-, -, hi⟩
          · exact absurd heq hne
          · exact hi
      · obtain ⟨hx, hxm⟩ := List.mem_filter.mp hx
        have hx := mem_reachableNodeIds.mp hx
        refine ⟨hx, fun _ => rfl, fun loop hl hin => ?_⟩
        exact absurd ((hmem x hx).mpr ⟨loop, hl, hin⟩) (of_decide_eq_true hxm)
    · intro ho
      by_cases hin : ∃ loop ∈ deriveLoops graph, key.nodeId ∈ loop.memberIds
      · obtain ⟨loop, hl, hin⟩ := hin
        obtain ⟨t, ht, hhead, hbody⟩ := ho.pass loop hl hin
        refine .inl ⟨loop, (hmemloops loop).mpr
          ⟨hl, h.reachable_members hl hin (h.head_mem hl) ho.reachable⟩, t, ht, ?_⟩
        rw [mem_loopKeys (h.nodup_memberIds hl)]
        by_cases heq : key.nodeId = loop.batchNodeId
        · exact .inl ⟨heq, hhead heq⟩
        · exact .inr ⟨hin, heq, hbody heq⟩
      · refine .inr ⟨key.nodeId, List.mem_filter.mpr
          ⟨mem_reachableNodeIds.mpr ho.reachable, ?_⟩, ?_⟩
        · simpa using fun hm => hin ((hmem _ ho.reachable).mp hm)
        · rw [← ho.plain fun loop hl hin' => hin ⟨loop, hl, hin'⟩]

end Executable

/-! ## Complete tables -/

/-- How many settled steps the execution owes, the last passes read from the table. -/
def expectedSteps (graph : WorkflowGraph) (trigger : GraphNode) (table : StepTable) : Option ℕ :=
  countExpectedSettledSteps (deriveLoops graph) (reachableNodeIds graph trigger)
    table.terminalIteration

def Complete (graph : WorkflowGraph) (trigger : GraphNode) (table : StepTable) : Prop :=
  ∃ n, expectedSteps graph trigger table = some n ∧ n ≤ table.countSettledSteps

theorem StepTable.nodup_rows (table : StepTable) : table.rows.Nodup := table.nodup_keys.of_map _

theorem StepTable.countSettledSteps_le (table : StepTable) :
    table.countSettledSteps ≤ table.rows.length := List.countP_le_length

/-- Every row has settled exactly if the count of settled rows is the count of rows. -/
theorem StepTable.countSettledSteps_eq {table : StepTable} :
    table.countSettledSteps = table.rows.length ↔ ∀ row ∈ table.rows, row.Settled :=
  List.countP_eq_length

theorem countLoopSteps_congr {terminals terminals' : String → Option ℕ}
    {loops : List WorkflowLoop}
    (ht : ∀ loop ∈ loops, terminals loop.batchNodeId = terminals' loop.batchNodeId)
    (expected : ℕ) (members : List String) :
    countLoopSteps terminals loops expected members =
      countLoopSteps terminals' loops expected members := by
  induction loops generalizing expected members with
  | nil => rfl
  | cons loop loops ih =>
    rw [countLoopSteps, countLoopSteps, ht loop List.mem_cons_self]
    simp only [ih fun l hl => ht l (List.mem_cons_of_mem _ hl)]

/-- The formula reads the last passes of the reached loops only. -/
theorem countExpectedSettledSteps_congr {graph : WorkflowGraph} {reachable : List String}
    {terminals terminals' : String → Option ℕ}
    (ht : ∀ loop ∈ deriveLoops graph, loop.batchNodeId ∈ reachable →
      terminals loop.batchNodeId = terminals' loop.batchNodeId) :
    countExpectedSettledSteps (deriveLoops graph) reachable terminals =
      countExpectedSettledSteps (deriveLoops graph) reachable terminals' := by
  unfold countExpectedSettledSteps
  rw [countLoopSteps_congr fun loop hl => ?_]
  obtain ⟨hl, hr⟩ := List.mem_filter.mp hl
  exact ht loop hl (by simpa using hr)

namespace Executable

variable {graph : WorkflowGraph} {trigger : GraphNode} (h : Executable graph trigger)
  {table table' : StepTable} {n : ℕ}

include h

section Orderly

variable (ho : Orderly graph trigger table)
include ho

/-- **An admissible step is owed.** -/
theorem owed_of_admissible
    (ht : ∀ loop ∈ deriveLoops graph, loop.batchNodeId ∈ reachableFrom graph trigger.id →
      ∃ t, table.terminalIteration loop.batchNodeId = some t)
    {key : StepKey} (ha : Admissible graph trigger table key) :
    Owed graph trigger table.terminalIteration key := by
  refine ⟨ha.reachable, ha.plain, fun loop hl hin => ?_⟩
  obtain ⟨t, hterm⟩ := ht loop hl (h.reachable_members hl hin (h.head_mem hl) ha.reachable)
  have hends := (terminalIteration_eq_some ho hl).mp hterm
  -- a pass that went on comes before the last one
  have hlt : ∀ i, table.Continues loop.batchNodeId i → i < t := by
    intro i hc
    obtain ⟨row, hr, hk, -, -⟩ := id hc
    refine lt_of_le_of_ne (le_of_ends ho hl hends hr hk) fun heq => ?_
    exact hc.not_ends (heq ▸ hends)
  refine ⟨t, hterm, fun heq => ?_, fun hne => hlt _ (ha.body loop hl hin hne)⟩
  cases hi : key.iteration with
  | zero => exact Nat.zero_le t
  | succ i => exact hlt i (ha.head loop hl heq i hi)

/-- **An execution has no more rows than it owes.** -/
theorem rows_le_expected (hn : expectedSteps graph trigger table = some n) :
    table.rows.length ≤ n := by
  obtain ⟨ht, keys, -, rfl, hkeys⟩ := h.exists_owed hn
  rw [← List.length_map StepRecord.toStepKey]
  refine (List.subperm_of_subset table.nodup_keys fun key hk => ?_).length_le
  obtain ⟨row, hr, rfl⟩ := List.mem_map.mp hk
  exact (hkeys _).mpr (h.owed_of_admissible ho ht (ho row hr))

theorem Complete.settled (hc : Complete graph trigger table) : ∀ row ∈ table.rows, row.Settled := by
  obtain ⟨n, hn, hle⟩ := hc
  refine StepTable.countSettledSteps_eq.mp (le_antisymm table.countSettledSteps_le ?_)
  exact (h.rows_le_expected ho hn).trans hle

theorem Complete.count_eq (hc : Complete graph trigger table) :
    expectedSteps graph trigger table = some table.countSettledSteps := by
  obtain ⟨n, hn, hle⟩ := hc
  rw [hn, le_antisymm hle (table.countSettledSteps_le.trans (h.rows_le_expected ho hn))]

theorem Complete.exists_row (hc : Complete graph trigger table) {key : StepKey}
    (ha : Admissible graph trigger table key) : ∃ row ∈ table.rows, row.toStepKey = key := by
  have hn := Complete.count_eq h ho hc
  obtain ⟨ht, keys, -, hlen, hkeys⟩ := h.exists_owed hn
  have hsub : table.rows.map StepRecord.toStepKey ⊆ keys := by
    intro key hk
    obtain ⟨row, hr, rfl⟩ := List.mem_map.mp hk
    exact (hkeys _).mpr (h.owed_of_admissible ho ht (ho row hr))
  have hperm := (List.subperm_of_subset table.nodup_keys hsub).perm_of_length_le (by
    rw [List.length_map, hlen]
    exact table.countSettledSteps_le)
  have hk := hperm.mem_iff.mpr ((hkeys key).mpr (h.owed_of_admissible ho ht ha))
  exact List.mem_map.mp hk

/-- The table in which the count is reached has a row that settled just then. -/
theorem Complete.exists_newly_settled (ho' : Orderly graph trigger table')
    (hc : Complete graph trigger table') (hnot : ¬ Complete graph trigger table) :
    ∃ row ∈ table'.rows, row.Settled ∧ row ∉ table.rows := by
  by_contra hnone
  push Not at hnone
  obtain ⟨n, hn, hle⟩ := hc
  have hcount : table'.countSettledSteps ≤ table.countSettledSteps := by
    unfold StepTable.countSettledSteps
    rw [List.countP_eq_length_filter, List.countP_eq_length_filter]
    refine (List.subperm_of_subset (table'.nodup_rows.filter _) fun row hr => ?_).length_le
    obtain ⟨hr, hs⟩ := List.mem_filter.mp hr
    exact List.mem_filter.mpr ⟨hnone row hr hs, hs⟩
  refine hnot ⟨n, ?_, hle.trans hcount⟩
  rw [← hn]
  obtain ⟨ht, -⟩ := h.exists_owed hn
  refine countExpectedSettledSteps_congr fun loop hl hr => ?_
  obtain ⟨t, hterm⟩ := ht loop hl (mem_reachableNodeIds.mp hr)
  obtain ⟨row, hrow, hk, hends⟩ := (terminalIteration_eq_some ho' hl).mp hterm
  rw [hterm]
  exact (terminalIteration_eq_some ho hl).mpr
    ⟨row, hnone row hrow (StepTable.settled_of_isTerminalStep hends), hk, hends⟩

section Orderly

variable (ho' : Orderly graph trigger table') (hext : table.Extends table')
include ho' hext

/-- The count of owed steps is settled once every reached loop has ended. -/
theorem expectedSteps_mono (hn : expectedSteps graph trigger table = some n) :
    expectedSteps graph trigger table' = some n := by
  obtain ⟨ht, -⟩ := h.exists_owed hn
  rw [← hn]
  refine countExpectedSettledSteps_congr fun loop hl hr => ?_
  obtain ⟨t, hterm⟩ := ht loop hl (mem_reachableNodeIds.mp hr)
  rw [hterm]
  exact (terminalIteration_eq_some ho' hl).mpr
    (((terminalIteration_eq_some ho hl).mp hterm).mono hext)

/-- **A complete table is final**: later tables have the same rows. -/
theorem Complete.final (hc : Complete graph trigger table) (row : StepRecord) :
    row ∈ table'.rows ↔ row ∈ table.rows := by
  have hsettled := Complete.settled h ho hc
  have hsub : table.rows ⊆ table'.rows := fun row hr => hext.settled hr (hsettled row hr)
  have hlen : table'.rows.length ≤ table.rows.length := by
    have hn := Complete.count_eq h ho hc
    exact (h.rows_le_expected ho' (h.expectedSteps_mono ho ho' hext hn)).trans
      table.countSettledSteps_le
  exact ((List.subperm_of_subset table.nodup_rows hsub).perm_of_length_le hlen).mem_iff.symm

theorem Complete.mono (hc : Complete graph trigger table) : Complete graph trigger table' := by
  have hperm : table'.rows.Perm table.rows :=
    (List.perm_ext_iff_of_nodup table'.nodup_rows table.nodup_rows).mpr
      (Complete.final h ho ho' hext hc)
  obtain ⟨n, hn, hle⟩ := hc
  refine ⟨n, h.expectedSteps_mono ho ho' hext hn, ?_⟩
  rw [StepTable.countSettledSteps, hperm.countP_eq]
  exact hle

end Orderly

end Orderly

end Executable

/-! ## Closed tables are complete -/

/-- No step is due: the trigger has its row, every row has settled, and every due step exists. -/
structure Closed (graph : WorkflowGraph) (trigger : GraphNode) (table : StepTable) : Prop where
  orderly : Orderly graph trigger table
  settled : ∀ row ∈ table.rows, row.Settled
  start : ∃ row ∈ table.rows, row.toStepKey = ⟨trigger.id, 0⟩
  due : ∀ key, Due graph trigger table key → ∃ row ∈ table.rows, row.toStepKey = key

namespace Executable

variable {graph : WorkflowGraph} {trigger : GraphNode} (h : Executable graph trigger)
  {table : StepTable} {loop : WorkflowLoop} {i : ℕ}

include h

omit h in
theorem classifyEdge_eq_back {edge : GraphEdge} {loops : List WorkflowLoop} :
    classifyEdge edge loops = .back ↔ edge.isBackEdge = true := by
  unfold classifyEdge
  by_cases hb : edge.isBackEdge = true
  · simp [hb]
  · simp only [hb, if_false, Bool.false_eq_true, iff_false]
    split_ifs <;> simp

omit h in
theorem forward_of_ne_back {edge : GraphEdge} (he : edge ∈ graph.edges)
    (hne : classifyEdge edge (deriveLoops graph) ≠ .back) :
    graph.Forward edge.from edge.to := by
  refine ⟨edge, he, ?_, rfl, rfl⟩
  by_contra hb
  exact hne (classifyEdge_eq_back.mpr (by simpa using hb))

section Closed

variable (hc : Closed graph trigger table)
include hc

theorem Closed.exists_row {key : StepKey} (ha : Admissible graph trigger table key)
    (hsrc : ∀ edge ∈ graph.edges, edge.to = key.nodeId →
      sourceAt graph table key edge = .none ∨
      ∃ row ∈ table.rows, sourceAt graph table key edge = .row row.toStepKey)
    (hsome : ∃ edge ∈ graph.edges, edge.to = key.nodeId ∧ sourceAt graph table key edge ≠ .none) :
    ∃ row ∈ table.rows, row.toStepKey = key := by
  refine hc.due key ⟨ha, creates_iff.mpr ⟨h.not_isPastLoopEnd ha, fun edge he hto => ?_, ?_⟩⟩
  · rcases hsrc edge he hto with hn | ⟨row, hr, hk⟩
    · rw [hn]
      exact SourceRow.resolved_none _
    · rw [hk]
      exact StepTable.resolved_row_iff.mpr ⟨row, hr, rfl, hc.settled row hr⟩
  · obtain ⟨edge, he, hto, hne⟩ := hsome
    rcases hsrc edge he hto with hn | ⟨row, hr, hk⟩
    · exact absurd hn hne
    · exact ⟨edge, he, hto, _, hk⟩

/-- The body of a pass that went on: by the order of the forward edges. -/
theorem Closed.body_row (hl : loop ∈ deriveLoops graph)
    (hcont : table.Continues loop.batchNodeId i)
    (hr : loop.batchNodeId ∈ reachableFrom graph trigger.id) (x : String)
    (hx : x ∈ loop.memberIds) : ∃ row ∈ table.rows, row.toStepKey = ⟨x, i⟩ := by
  induction hn : rank graph x using Nat.strong_induction_on generalizing x with
  | _ n ih =>
    by_cases hhead : x = loop.batchNodeId
    · obtain ⟨row, hrow, hk, -, -⟩ := hcont
      exact ⟨row, hrow, hhead ▸ hk⟩
    · have hsource : ∀ edge ∈ graph.edges, edge.to = x →
          sourceAt graph table ⟨x, i⟩ edge = .row ⟨edge.from, i⟩ ∧
            ∃ row ∈ table.rows, row.toStepKey = ⟨edge.from, i⟩ := by
        rintro edge he rfl
        obtain ⟨hclass, hfrom⟩ := h.intra_of_body he hl hx hhead
        refine ⟨by rw [sourceAt, hclass, sourceRow], ih _ ?_ _ hfrom rfl⟩
        exact hn ▸ h.rank_lt (forward_of_ne_back he (by rw [hclass]; simp))
      refine Closed.exists_row h hc ?_ (fun edge he hto => ?_) ?_
      · refine ⟨h.reachable_members hl (h.head_mem hl) hx hr, fun hout => absurd hx (hout loop hl),
          fun loop' hl' ht => absurd ht (h.not_mem_of_ne_head hl hl' hx hhead),
          fun loop' hl' hx' _ => ?_⟩
        rwa [h.loop_unique hl' hl hx' hx]
      · obtain ⟨hsrc, row, hrow, hk⟩ := hsource edge he hto
        exact .inr ⟨row, hrow, by rw [hsrc, hk]⟩
      · obtain ⟨edge, he, hto⟩ := h.exists_edge_into_body hl hx hhead
        exact ⟨edge, he, hto, by rw [(hsource edge he hto).1]; simp⟩

/-- A pass that went on is followed by the next pass. -/
theorem Closed.next_row (hl : loop ∈ deriveLoops graph) (hcont : table.Continues loop.batchNodeId i)
    (hr : loop.batchNodeId ∈ reachableFrom graph trigger.id) :
    ∃ row ∈ table.rows, row.toStepKey = ⟨loop.batchNodeId, i + 1⟩ := by
  refine Closed.exists_row h hc ?_ (fun edge he hto => ?_) ?_
  · refine ⟨hr, fun hout => absurd (h.head_mem hl) (hout loop hl), fun loop' hl' ht j hj => ?_,
      fun loop' hl' hin hne => ?_⟩
    · obtain rfl : i = j := Nat.succ_injective hj
      rwa [← loop_eq_of_head hl hl' ht]
    · exact absurd (congrArg WorkflowLoop.batchNodeId
        (h.loop_unique hl hl' (h.head_mem hl) hin)) hne
  · have hshape := h.edgeShape he
    unfold sourceAt
    generalize classifyEdge edge (deriveLoops graph) = edgeClass at hshape ⊢
    cases hshape with
    | plain source target => exact absurd (h.mem_of_eq_head hl hto) (target loop hl)
    | intra loop' mem source target body =>
      exact absurd hto (h.not_mem_of_ne_head mem hl target body)
    | entry => exact .inl (by simp [sourceRow])
    | exit => exact .inl (by simp [sourceRow])
    | back loop' mem source target backEdge =>
      have : loop' = loop := loop_eq_of_head mem hl (target.symm.trans hto)
      subst this
      obtain ⟨row, hrow, hk⟩ := Closed.body_row h hc hl hcont hr _ source
      exact .inr ⟨row, hrow, by simp [sourceRow, hk]⟩
  · obtain ⟨b, ⟨edge, he, hb, hto⟩, hloop⟩ := mem_deriveLoops.mp hl
    have hto : edge.to = loop.batchNodeId := by rw [hloop]; exact hto
    have hclass : classifyEdge edge (deriveLoops graph) = .back := if_pos hb
    exact ⟨edge, he, hto, by rw [sourceAt, hclass]; simp [sourceRow]⟩

/-- A loop that was entered ends: a table has finitely many rows. -/
theorem Closed.exists_ends (hl : loop ∈ deriveLoops graph)
    (hr : loop.batchNodeId ∈ reachableFrom graph trigger.id)
    (h₀ : ∃ row ∈ table.rows, row.toStepKey = ⟨loop.batchNodeId, 0⟩) :
    ∃ t, table.Ends loop.batchNodeId t := by
  by_contra hnone
  have hall : ∀ i, ∃ row ∈ table.rows, row.toStepKey = ⟨loop.batchNodeId, i⟩ := by
    intro i
    induction i with
    | zero => exact h₀
    | succ i ih =>
      obtain ⟨row, hrow, hk⟩ := ih
      refine Closed.next_row h hc hl ⟨row, hrow, hk, hc.settled row hrow, ?_⟩ hr
      by_contra ht
      exact hnone ⟨i, row, hrow, hk, by simpa using ht⟩
  have hsub : (List.range (table.rows.length + 1)).map (StepKey.mk loop.batchNodeId) ⊆
      table.rows.map StepRecord.toStepKey := by
    intro key hk
    obtain ⟨i, -, rfl⟩ := List.mem_map.mp hk
    obtain ⟨row, hrow, hk⟩ := hall i
    exact List.mem_map.mpr ⟨row, hrow, hk⟩
  have hnd := (@List.nodup_range (table.rows.length + 1)).map
    fun i j hij => (StepKey.mk.inj hij : loop.batchNodeId = _ ∧ i = j).2
  have hlen := (List.subperm_of_subset hnd hsub).length_le
  simp only [List.length_map, List.length_range] at hlen
  omega

/-- **Every node outside a loop body has its first step**, and the loops entered there have ended:
by the order of the forward edges. -/
theorem Closed.first_row (x : String) (hx : x ∈ reachableFrom graph trigger.id)
    (hhead : ∀ loop ∈ deriveLoops graph, x ∈ loop.memberIds → x = loop.batchNodeId) :
    (∃ row ∈ table.rows, row.toStepKey = ⟨x, 0⟩) ∧
      ∀ loop ∈ deriveLoops graph, x = loop.batchNodeId → ∃ t, table.Ends x t := by
  induction hn : rank graph x using Nat.strong_induction_on generalizing x with
  | _ n ih =>
    have hrow : ∃ row ∈ table.rows, row.toStepKey = ⟨x, 0⟩ := by
      by_cases htr : x = trigger.id
      · exact htr ▸ hc.start
      · refine Closed.exists_row h hc ?_ (fun edge he hto => ?_) ?_
        · exact ⟨hx, fun _ => rfl, fun _ _ _ i hi => (Nat.succ_ne_zero i hi.symm).elim,
            fun loop hl hin hne => absurd (hhead loop hl hin) hne⟩
        · have hto : edge.to = x := hto
          have hreach := h.closed edge he (hto.symm ▸ hx)
          have hrank := fun hne => h.rank_lt (forward_of_ne_back he hne)
          have hshape := h.edgeShape he
          unfold sourceAt
          generalize classifyEdge edge (deriveLoops graph) = edgeClass at hshape hrank ⊢
          have ih := fun hne => ih _ (hn ▸ hto ▸ hrank hne) edge.from hreach
          cases hshape with
          | plain source target =>
            obtain ⟨⟨row, hrow, hk⟩, -⟩ :=
              ih (by simp) (fun loop hl hin => absurd hin (source loop hl)) rfl
            exact .inr ⟨row, hrow, by simp [sourceRow, hk]⟩
          | entry loop mem source target =>
            obtain ⟨⟨row, hrow, hk⟩, -⟩ :=
              ih (by simp) (fun loop hl hin => absurd hin (source loop hl)) rfl
            exact .inr ⟨row, hrow, by simp [sourceRow, hk]⟩
          | intra loop mem source target body =>
            exact absurd (hto.trans (hhead loop mem (hto ▸ target))) body
          | back => exact .inl (by simp [sourceRow])
          | exit loop mem source target =>
            obtain ⟨-, hends⟩ := ih (by simp) (fun loop' hl' hin => by
              rw [source, h.loop_unique mem hl' (h.head_mem mem) (source ▸ hin)]) rfl
            obtain ⟨t, hends⟩ := hends loop mem source
            rw [source] at hends
            have hterm := (terminalIteration_eq_some hc.orderly mem).mpr hends
            obtain ⟨row, hrow, hk, -⟩ := hends
            exact .inr ⟨row, hrow, by simp [sourceRow, source, hterm, hk]⟩
        · obtain ⟨edge, he, hb, hto, hout⟩ := h.exists_forward_into hx htr hhead
          refine ⟨edge, he, hto, ?_⟩
          have hshape := h.edgeShape he
          have hback := @classifyEdge_eq_back edge (deriveLoops graph)
          unfold sourceAt
          generalize classifyEdge edge (deriveLoops graph) = edgeClass at hshape hback ⊢
          cases hshape with
          | plain => simp [sourceRow]
          | entry => simp [sourceRow]
          | intra loop mem source target =>
            exact absurd source (hout loop mem (hto ▸ target))
          | back => simp [hb] at hback
          | exit => simp only [sourceRow, lt_irrefl, if_false]; split <;> simp
    refine ⟨hrow, fun loop hl heq => ?_⟩
    subst heq
    exact Closed.exists_ends h hc hl hx hrow

/-- **A closed table is complete.** -/
theorem Closed.complete : Complete graph trigger table := by
  have hends : ∀ loop ∈ deriveLoops graph, loop.batchNodeId ∈ reachableFrom graph trigger.id →
      ∃ t, table.terminalIteration loop.batchNodeId = some t := by
    intro loop hl hr
    obtain ⟨-, hends⟩ := Closed.first_row h hc loop.batchNodeId hr fun loop' hl' hin => by
      rw [h.loop_unique hl hl' (h.head_mem hl) hin]
    obtain ⟨t, ht⟩ := hends loop hl rfl
    exact ⟨t, (terminalIteration_eq_some hc.orderly hl).mpr ht⟩
  have hends' : ∀ loop ∈ (deriveLoops graph).filter fun loop =>
      loop.batchNodeId ∈ reachableNodeIds graph trigger,
      ∃ t, table.terminalIteration loop.batchNodeId = some t := by
    intro loop hl
    obtain ⟨hl, hr⟩ := List.mem_filter.mp hl
    exact hends loop hl (mem_reachableNodeIds.mp (by simpa using hr))
  obtain ⟨r, hr⟩ := exists_countLoopSteps hends' 0 []
  obtain ⟨n, hn⟩ : ∃ n, expectedSteps graph trigger table = some n :=
    ⟨_, Option.map_eq_some_iff.mpr ⟨r, hr, rfl⟩⟩
  refine ⟨n, hn, ?_⟩
  rw [StepTable.countSettledSteps_eq.mpr hc.settled]
  obtain ⟨-, keys, hnd, rfl, hkeys⟩ := h.exists_owed hn
  rw [← List.length_map StepRecord.toStepKey]
  refine (List.subperm_of_subset hnd fun key hk => ?_).length_le
  have howed := (hkeys key).mp hk
  obtain ⟨node, i⟩ := key
  suffices hrow : ∃ row ∈ table.rows, row.toStepKey = ⟨node, i⟩ from
    List.mem_map.mpr hrow
  by_cases hin : ∃ loop ∈ deriveLoops graph, node ∈ loop.memberIds
  · obtain ⟨loop, hl, hin⟩ := hin
    have hreach := h.reachable_members hl hin (h.head_mem hl) howed.reachable
    obtain ⟨t, hterm, hpass, hbody⟩ := howed.pass loop hl hin
    have ht := (terminalIteration_eq_some hc.orderly hl).mp hterm
    obtain ⟨last, hlast, hlk, -⟩ := id ht
    by_cases heq : node = loop.batchNodeId
    · subst heq
      rcases (hpass rfl).lt_or_eq with hlt | rfl
      · obtain ⟨row, hrow, hrk, -, -⟩ := continues_of_row hc.orderly hl hlast hlk hlt
        exact ⟨row, hrow, hrk⟩
      · exact ⟨last, hlast, hlk⟩
    · exact Closed.body_row h hc hl (continues_of_row hc.orderly hl hlast hlk (hbody heq)) hreach
        node hin
  · obtain rfl : i = 0 := howed.plain fun loop hl hin' => hin ⟨loop, hl, hin'⟩
    exact (Closed.first_row h hc node howed.reachable
      fun loop hl hin' => absurd ⟨loop, hl, hin'⟩ hin).1

end Closed

end Executable

end N8n.Engine
