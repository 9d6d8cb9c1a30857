import Mathlib.Data.List.Sort
import Mathlib.Order.Lattice.Nat
import Std.Data.String.ToNat
import N8n.WorkflowExecute.WaitingExecution

/-!
# Which waiting entry is released

When the stack is empty, the engine looks through the waiting nodes and releases one entry of the
first node that may run without the rest of its data. Of the entries of a node it looks at one only:
the one under the key that is first when the keys are compared as strings, where "10" comes before
"2".

## Main definitions

* `MayRelease`: the entry of a node under a key may be released
* `ReleasesOldest`: of the entries that may be released, the one under the least key is
* `OldestFirst`: the least key that may be released is the first of all keys as a string

## Main results

* `isSome_releaseCandidate`: what the engine does with a waiting node
* `releasesOldest_iff_oldestFirst`: when it releases the oldest entry
-/

namespace N8n.WorkflowExecute

variable {α : Type}

/-! ## The entries that may be released -/

/-- The names of the waiting nodes, in the order in which the engine looks at them. -/
def ExecutionData.waitingNodes (d : ExecutionData α) : List String :=
  objectKeys d.waitingExecution.keys

/-- The inputs that a node requires. Only the execution order `v1` looks at them. -/
def Workflow.requiredInputs (workflow : Workflow) (checkNode : INode) : Option RequiredInputs :=
  if workflow.isLegacyExecutionOrder then none else checkNode.requiredInputs

def RequiresAll (checkNode : INode) : Option RequiredInputs → Prop
  | none => False
  | some (.amount n) => n = checkNode.inputsLength
  | some (.indexes inputs) => inputs.length = checkNode.inputsLength

def inputsWithData (main : InputData α) : ℕ :=
  ((List.range main.length).filter fun i => (at? main i).isSome).length

def HasRequired (main : InputData α) : Option RequiredInputs → Prop
  | none => True
  | some (.amount n) => n ≤ inputsWithData main
  | some (.indexes inputs) => ∀ i ∈ inputs, (at? main i).isSome

/-- The node may run on the entry under the key: it need not have data at all its inputs, no node
before it waits, and the entry has data where it is required. -/
def MayRelease (workflow : Workflow) (d : ExecutionData α) (node : String) (key : ℕ) : Prop :=
  ∃ checkNode main, workflow.nodes.get? node = some checkNode ∧
    ¬ RequiresAll checkNode (workflow.requiredInputs checkNode) ∧
    (∀ parent ∈ workflow.getParentNodes node, parent ∉ d.waitingNodes) ∧
    (d.waitingExecution.entriesOf node).get? key = some main ∧
    HasRequired main (workflow.requiredInputs checkNode)

/-- Of the entries of the node that may be released, the one under the least key is. -/
def ReleasesOldest (workflow : Workflow) (d : ExecutionData α) (node : String) : Prop :=
  ∀ key, (∃ data, releaseCandidate workflow d d.waitingNodes node = some (key, data)) ↔
    IsLeast {key | MayRelease workflow d node key} key

/-- The key is the first of the keys of the entries when they are compared as strings. -/
def FirstAsString (entries : OrderedMap ℕ (InputData α)) (key : ℕ) : Prop :=
  key ∈ entries.keys ∧ ∀ other ∈ entries.keys, toString key ≤ toString other

/-- The least key that may be released is the first of all keys of the node as a string. -/
def OldestFirst (workflow : Workflow) (d : ExecutionData α) (node : String) : Prop :=
  ∀ key, IsLeast {key | MayRelease workflow d node key} key →
    FirstAsString (d.waitingExecution.entriesOf node) key

/-! ## The entry that the engine looks at -/

variable {workflow : Workflow} {d : ExecutionData α} {node : String} {key : ℕ}
variable {entries : OrderedMap ℕ (InputData α)} {main : InputData α}
  {requiredInputs : Option RequiredInputs}

theorem firstAsString_unique {key' : ℕ} (h : FirstAsString entries key)
    (h' : FirstAsString entries key') : key = key' := by
  apply Nat.repr_injective
  exact String.le_antisymm (h.2 key' h'.1) (h'.2 key h.1)

/-- The engine sorts the keys of a node as strings and takes the first. -/
theorem head?_insertionSort_toString :
    (entries.keys.insertionSort fun a b => toString a ≤ toString b).head? = some key ↔
      FirstAsString entries key := by
  have hsorted := List.pairwise_insertionSort (fun a b : ℕ => toString a ≤ toString b) entries.keys
  have hmem : ∀ k, k ∈ entries.keys.insertionSort (fun a b => toString a ≤ toString b) ↔
      k ∈ entries.keys := fun k => List.mem_insertionSort _
  cases hkeys : entries.keys.insertionSort fun a b => toString a ≤ toString b with
  | nil =>
    rw [hkeys] at hmem
    constructor
    · intro h
      cases h
    · intro h
      exact absurd ((hmem key).mpr h.1) List.not_mem_nil
  | cons first rest =>
    rw [hkeys] at hsorted hmem
    have hfirst : FirstAsString entries first := by
      refine ⟨(hmem first).mp List.mem_cons_self, ?_⟩
      intro other hother
      rcases List.mem_cons.mp ((hmem other).mpr hother) with rfl | hrest
      · exact String.le_refl _
      · exact List.rel_of_pairwise_cons hsorted hrest
    rw [List.head?_cons, Option.some.injEq]
    constructor
    · rintro rfl
      exact hfirst
    · exact firstAsString_unique hfirst

theorem not_requiresAll {checkNode : INode} :
    (!match requiredInputs with
      | none => false
      | some (.amount n) => decide (n = checkNode.inputsLength)
      | some (.indexes inputs) => decide (inputs.length = checkNode.inputsLength)) = true ↔
      ¬ RequiresAll checkNode requiredInputs := by
  rcases requiredInputs with _ | _ | _ <;> simp [RequiresAll]

theorem hasRequired_iff :
    (match requiredInputs with
      | none => true
      | some (.amount n) =>
        decide (n ≤ ((List.range main.length).filter fun i => (at? main i).isSome).length)
      | some (.indexes inputs) =>
        inputs.all (· ∈ (List.range main.length).filter fun i => (at? main i).isSome)) = true ↔
      HasRequired main requiredInputs := by
  rcases requiredInputs with _ | n | inputs
  · exact iff_of_true rfl True.intro
  · exact decide_eq_true_iff
  · rw [List.all_eq_true]
    apply forall₂_congr
    intro i _
    rw [decide_eq_true_iff, List.mem_filter, List.mem_range, and_iff_right_iff_imp]
    intro hdata
    -- an array has nothing behind its end
    by_contra hlength
    rw [at?, List.getElem?_eq_none (Nat.le_of_not_lt hlength)] at hdata
    cases hdata

theorem guard_eq_some {p : Prop} [Decidable p] : (∃ u, (guard p : Option Unit) = some u) ↔ p := by
  unfold guard
  split_ifs with h
  · exact iff_of_true ⟨(), rfl⟩ h
  · refine iff_of_false ?_ h
    rintro ⟨_, hu⟩
    cases hu

/-- **What the engine does with a waiting node**: it looks at the entry that is first as a string,
and releases it if it may. -/
theorem isSome_releaseCandidate :
    (∃ data, releaseCandidate workflow d d.waitingNodes node = some (key, data)) ↔
      FirstAsString (d.waitingExecution.entriesOf node) key ∧ MayRelease workflow d node key := by
  simp only [releaseCandidate, Option.bind_eq_bind, Option.bind_eq_some_iff, Option.pure_def,
    Option.some.injEq, Prod.mk.injEq, head?_insertionSort_toString]
  have hparents : (!(workflow.getParentNodes node).any (· ∈ d.waitingNodes)) = true ↔
      ∀ parent ∈ workflow.getParentNodes node, parent ∉ d.waitingNodes := by simp
  constructor
  · rintro ⟨_, checkNode, hnode, _, hall, _, hnone, first, hfirst, main, hmain, _, hrequired, rfl,
      rfl⟩
    refine ⟨hfirst, checkNode, main, hnode, ?_, ?_, hmain, ?_⟩
    · exact not_requiresAll.mp (guard_eq_some.mp ⟨_, hall⟩)
    · exact hparents.mp (guard_eq_some.mp ⟨_, hnone⟩)
    · exact hasRequired_iff.mp (guard_eq_some.mp ⟨_, hrequired⟩)
  · rintro ⟨hfirst, checkNode, main, hnode, hall, hnone, hmain, hrequired⟩
    obtain ⟨_, hall⟩ := guard_eq_some.mpr (not_requiresAll.mpr hall)
    obtain ⟨_, hnone⟩ := guard_eq_some.mpr (hparents.mpr hnone)
    obtain ⟨_, hrequired⟩ := guard_eq_some.mpr (hasRequired_iff.mpr hrequired)
    exact ⟨_, checkNode, hnode, _, hall, _, hnone, key, hfirst, main, hmain, _, hrequired, rfl, rfl⟩

/-- **The oldest entry is released** exactly where the keys as strings begin with it. -/
theorem releasesOldest_iff_oldestFirst :
    ReleasesOldest workflow d node ↔ OldestFirst workflow d node := by
  constructor
  · intro h key hleast
    exact (isSome_releaseCandidate.mp ((h key).mpr hleast)).1
  · intro h key
    rw [isSome_releaseCandidate]
    constructor
    · rintro ⟨hfirst, hmay⟩
      -- the least key is the first one, too
      obtain ⟨least, hleast⟩ : ∃ least, IsLeast {key | MayRelease workflow d node key} least :=
        ⟨sInf _, Nat.sInf_mem ⟨key, hmay⟩, fun _ h => Nat.sInf_le h⟩
      rw [firstAsString_unique hfirst (h least hleast)]
      exact hleast
    · intro hleast
      exact ⟨h key hleast, hleast.1⟩

end N8n.WorkflowExecute
