import Mathlib.Data.List.Basic
import Mathlib.Data.List.Pairwise
import Mathlib.Data.Int.Order.Basic

/-!
# The concurrency queue

A queue admits executions up to a capacity and lets the others wait. One signed counter says how
many more may run, or how many wait. Every call of `enqueue` returns a promise; promises are
numbered in the order of the calls, and an execution is let through when its promise is resolved.

## Main definitions

* `ConcurrencyQueue`: the counter, the waiting executions and the promises resolved so far
* `ConcurrencyQueue.enqueue`, `.dequeue`, `.remove`, `.removeAll`: the operations of a queue
* `ConcurrencyQueue.Accounted`: what relates the counter to the executions that run and wait

## Main results

* `Accounted.enqueue`, `Accounted.dequeue`, `Accounted.removeAll`: the operations keep the accounts
* `Accounted.room_of_enqueue`: an execution that is let through at once takes a free slot
* `remove_resolved_iff`, `removeAll_resolved_iff`: a removal lets an execution through exactly when
  another one waits
-/

namespace N8n.Concurrency

/-- A waiting execution, with the promise that lets it through. -/
structure QueueItem where
  executionId : String
  resolve : ℕ
deriving DecidableEq, Repr

structure ConcurrencyQueue where
  capacity : ℤ
  queue : List QueueItem
  /-- How many promises `enqueue` has returned. -/
  promises : ℕ
  /-- The promises resolved so far, in the order in which they were. -/
  resolved : List ℕ
deriving DecidableEq, Repr

namespace ConcurrencyQueue

/-! ## Operations -/

def new (capacity : ℤ) : ConcurrencyQueue := ⟨capacity, [], 0, []⟩

def resolveNext (q : ConcurrencyQueue) : ConcurrencyQueue :=
  match q.queue with
  | [] => q
  | item :: queue => { q with queue, resolved := q.resolved ++ [item.resolve] }

def enqueue (q : ConcurrencyQueue) (executionId : String) : ConcurrencyQueue :=
  let promise := q.promises
  let q := { q with capacity := q.capacity - 1, promises := promise + 1 }
  if q.capacity < 0 then { q with queue := q.queue ++ [⟨executionId, promise⟩] }
  -- the promise of an asynchronous function that has returned
  else { q with resolved := q.resolved ++ [promise] }

def dequeue (q : ConcurrencyQueue) : ConcurrencyQueue :=
  { q with capacity := q.capacity + 1 }.resolveNext

def remove (q : ConcurrencyQueue) (executionId : String) : ConcurrencyQueue :=
  match q.queue.findIdx? fun item => item.executionId = executionId with
  | none => q
  | some index =>
    { q with queue := q.queue.eraseIdx index, capacity := q.capacity + 1 }.resolveNext

/-- The waiting executions, each once. -/
def getAll (q : ConcurrencyQueue) : List String :=
  (q.queue.map QueueItem.executionId).eraseDups

/-- What the service does with each queue when all waiting executions are removed. -/
def removeAll (q : ConcurrencyQueue) : ConcurrencyQueue :=
  q.getAll.foldl remove q

/-! ## Accounts -/

/-- How many executions run: they were let through, and `released` of them have ended. -/
def running (q : ConcurrencyQueue) (released : ℕ) : ℤ := q.resolved.length - released

/-- The promises in the order in which they are resolved, those of waiting executions last. -/
def promised (q : ConcurrencyQueue) : List ℕ := q.resolved ++ q.queue.map QueueItem.resolve

/-- The counter is what the limit leaves after the executions that run and wait. Executions wait
only while the limit is reached, and are let through in the order in which they arrived. -/
structure Accounted (limit : ℤ) (released : ℕ) (q : ConcurrencyQueue) : Prop where
  released_le : released ≤ q.resolved.length
  capacity : q.capacity = limit - q.running released - q.queue.length
  waits : q.queue ≠ [] → limit ≤ q.running released
  order : q.promised.Pairwise (· < ·)
  fresh : ∀ promise ∈ q.promised, promise < q.promises

theorem Accounted.new {limit : ℤ} : Accounted limit 0 (new limit) := by
  refine ⟨?_, ?_, ?_, ?_, ?_⟩ <;> simp [ConcurrencyQueue.new, running, promised]

section Operations

variable {limit : ℤ} {released : ℕ} {q : ConcurrencyQueue}

/-- Resolving the next promise moves it from the waiting ones to the resolved ones. -/
theorem promised_resolveNext : q.resolveNext.promised = q.promised := by
  unfold resolveNext
  split
  · rfl
  · rename_i item queue hq
    simp [promised, hq]

theorem resolved_resolveNext :
    q.resolveNext.resolved = q.resolved ++ (q.queue.head?.map QueueItem.resolve).toList := by
  unfold resolveNext
  split
  · rename_i hq
    simp [hq]
  · rename_i item queue hq
    simp [hq]

theorem queue_resolveNext : q.resolveNext.queue = q.queue.tail := by
  unfold resolveNext
  split
  · rename_i hq
    simp [hq]
  · rename_i item queue hq
    simp [hq]

@[simp] theorem capacity_resolveNext : q.resolveNext.capacity = q.capacity := by
  unfold resolveNext
  split <;> rfl

@[simp] theorem promises_resolveNext : q.resolveNext.promises = q.promises := by
  unfold resolveNext
  split <;> rfl

/-- An execution that is let through at once takes a free slot. -/
theorem Accounted.room_of_enqueue (h : Accounted limit released q) (hc : ¬ q.capacity - 1 < 0) :
    q.queue = [] ∧ q.running released < limit := by
  have hcap := h.capacity
  have hnil : q.queue = [] := by
    by_contra hne
    have := h.waits hne
    omega
  rw [hnil] at hcap
  refine ⟨hnil, ?_⟩
  simp at hcap
  omega

theorem Accounted.enqueue (h : Accounted limit released q) (executionId : String) :
    Accounted limit released (q.enqueue executionId) := by
  have hcap := h.capacity
  have hle := h.released_le
  unfold ConcurrencyQueue.enqueue
  simp only
  split_ifs with hc
  · refine ⟨hle, ?_, ?_, ?_, ?_⟩
    · simp only [running, List.length_append, List.length_singleton] at hcap ⊢
      push_cast
      omega
    · intro _
      by_cases hq : q.queue = []
      · simp only [hq, running] at hcap ⊢
        simp at hcap
        omega
      · exact h.waits hq
    · simp only [promised, List.map_append, ← List.append_assoc]
      refine List.pairwise_append.mpr ⟨h.order, by simp, ?_⟩
      intro promise hp new hn
      obtain rfl : new = q.promises := by simpa using hn
      exact h.fresh promise hp
    · intro promise hp
      simp only [promised, List.map_append, ← List.append_assoc] at hp
      rcases List.mem_append.mp hp with hp | hp
      · exact Nat.lt_succ_of_lt (h.fresh promise hp)
      · obtain rfl : promise = q.promises := by simpa using hp
        exact Nat.lt_succ_self _
  · obtain ⟨hnil, hroom⟩ := h.room_of_enqueue hc
    have horder := h.order
    have hfresh := h.fresh
    simp only [promised, hnil, List.map_nil, List.append_nil] at horder hfresh
    refine ⟨?_, ?_, ?_, ?_, ?_⟩
    · simp only [List.length_append]
      omega
    · simp only [running, List.length_append, List.length_singleton, hnil] at hcap ⊢
      push_cast
      omega
    · intro hq
      exact absurd hnil hq
    · simp only [promised, hnil, List.map_nil, List.append_nil]
      refine List.pairwise_append.mpr ⟨horder, by simp, ?_⟩
      intro promise hp new hn
      obtain rfl : new = q.promises := by simpa using hn
      exact hfresh promise hp
    · intro promise hp
      simp only [promised, hnil, List.map_nil, List.append_nil] at hp
      rcases List.mem_append.mp hp with hp | hp
      · exact Nat.lt_succ_of_lt (hfresh promise hp)
      · obtain rfl : promise = q.promises := by simpa using hp
        exact Nat.lt_succ_self _

/-- Letting the next execution through keeps the accounts, also when one execution fewer than the
limit runs. -/
theorem accounted_resolveNext (hle : released ≤ q.resolved.length)
    (hcap : q.capacity = limit - q.running released - q.queue.length)
    (hwaits : q.queue ≠ [] → limit ≤ q.running released + 1)
    (horder : q.promised.Pairwise (· < ·)) (hfresh : ∀ promise ∈ q.promised, promise < q.promises) :
    Accounted limit released q.resolveNext := by
  refine ⟨?_, ?_, ?_, promised_resolveNext.symm ▸ horder, ?_⟩
  · rw [resolved_resolveNext, List.length_append]
    omega
  · rw [capacity_resolveNext, hcap, queue_resolveNext, running, running, resolved_resolveNext]
    cases q.queue with
    | nil => simp
    | cons item queue =>
      simp only [List.length_append, List.length_cons, List.tail_cons, List.head?_cons,
        Option.map_some, Option.toList_some, List.length_nil]
      push_cast
      omega
  · intro hne
    rw [queue_resolveNext] at hne
    rw [running, resolved_resolveNext]
    cases hq : q.queue with
    | nil => simp [hq] at hne
    | cons item queue =>
      have := hwaits (by simp [hq])
      rw [running] at this
      simp only [List.length_append, List.head?_cons, Option.map_some, Option.toList_some,
        List.length_singleton]
      push_cast
      omega
  · rw [promised_resolveNext, promises_resolveNext]
    exact hfresh

theorem Accounted.dequeue (h : Accounted limit released q) (hr : released < q.resolved.length) :
    Accounted limit (released + 1) q.dequeue := by
  unfold ConcurrencyQueue.dequeue
  refine accounted_resolveNext hr ?_ ?_ h.order h.fresh
  · have := h.capacity
    simp only [running] at this ⊢
    push_cast
    omega
  · intro hne
    have := h.waits hne
    simp only [running] at this ⊢
    push_cast
    omega

/-- Enqueueing lets no execution through beyond the limit. -/
theorem Accounted.running_enqueue (h : Accounted limit released q) (executionId : String)
    (hb : q.running released ≤ limit) : (q.enqueue executionId).running released ≤ limit := by
  unfold ConcurrencyQueue.enqueue
  simp only
  split_ifs with hc
  · exact hb
  · obtain ⟨-, hroom⟩ := h.room_of_enqueue hc
    simp only [running, List.length_append, List.length_singleton] at hroom ⊢
    push_cast
    omega

/-- An execution that ends is replaced by one at most. -/
theorem running_dequeue (hb : q.running released ≤ limit) :
    q.dequeue.running (released + 1) ≤ limit := by
  have hone : ((q.queue.head?.map QueueItem.resolve).toList).length ≤ 1 := by
    cases q.queue <;> simp
  unfold ConcurrencyQueue.dequeue
  rw [running, resolved_resolveNext, List.length_append]
  simp only [running] at hb ⊢
  push_cast
  omega

/-! ## Removals -/

/-- The queue from which a waiting execution is removed, before the next one is let through. -/
theorem remove_cases (q : ConcurrencyQueue) (executionId : String) :
    (executionId ∉ q.queue.map QueueItem.executionId ∧ q.remove executionId = q) ∨
    ∃ index, ∃ hi : index < q.queue.length, q.queue[index].executionId = executionId ∧
      q.remove executionId =
        { q with queue := q.queue.eraseIdx index, capacity := q.capacity + 1 }.resolveNext := by
  unfold remove
  split
  · rename_i hnone
    refine .inl ⟨?_, rfl⟩
    rw [List.findIdx?_eq_none_iff] at hnone
    rw [List.mem_map]
    rintro ⟨item, hitem, hid⟩
    simpa [hid] using hnone item hitem
  · rename_i index hsome
    obtain ⟨hi, hid, -⟩ := List.findIdx?_eq_some_iff_getElem.mp hsome
    exact .inr ⟨index, hi, by simpa using hid, rfl⟩

theorem Accounted.remove (h : Accounted limit released q) (executionId : String) :
    Accounted limit released (q.remove executionId) := by
  rcases q.remove_cases executionId with ⟨-, heq⟩ | ⟨index, hi, -, heq⟩
  · rwa [heq]
  · rw [heq]
    have hsub : (q.resolved ++ (q.queue.eraseIdx index).map QueueItem.resolve).Sublist q.promised :=
      ((List.eraseIdx_sublist q.queue index).map _).append_left _
    have hlen := List.length_eraseIdx_of_lt hi
    have hcap := h.capacity
    refine accounted_resolveNext h.released_le ?_ ?_ (h.order.sublist hsub) ?_
    · simp only [running, hlen] at hcap ⊢
      omega
    · intro hne
      have hne' : q.queue ≠ [] := List.ne_nil_of_length_pos (by omega)
      have := h.waits hne'
      simp only [running] at this ⊢
      omega
    · intro promise hp
      exact h.fresh promise (hsub.subset hp)

theorem Accounted.removeAll (h : Accounted limit released q) :
    Accounted limit released q.removeAll := by
  unfold ConcurrencyQueue.removeAll
  generalize q.getAll = ids
  induction ids generalizing q with
  | nil => exact h
  | cons executionId ids ih => exact ih (h.remove executionId)

/-- A removal resolves no promise twice and forgets none that is resolved. -/
theorem prefix_remove (q : ConcurrencyQueue) (executionId : String) :
    q.resolved <+: (q.remove executionId).resolved := by
  rcases q.remove_cases executionId with ⟨-, heq⟩ | ⟨index, hi, -, heq⟩
  · exact heq.symm ▸ List.prefix_refl _
  · rw [heq, resolved_resolveNext]
    exact List.prefix_append _ _

theorem prefix_foldl_remove (ids : List String) (q : ConcurrencyQueue) :
    q.resolved <+: (ids.foldl remove q).resolved := by
  induction ids generalizing q with
  | nil => exact List.prefix_refl _
  | cons executionId ids ih => exact (prefix_remove q executionId).trans (ih _)

/-- The removal of a waiting execution lets another one through exactly when another one waits. -/
theorem remove_resolved_iff (q : ConcurrencyQueue) (executionId : String) :
    (q.remove executionId).resolved = q.resolved ↔
      (executionId ∈ q.queue.map QueueItem.executionId → q.queue.length = 1) := by
  rcases q.remove_cases executionId with ⟨hnot, heq⟩ | ⟨index, hi, hid, heq⟩
  · simp [heq, hnot]
  · have hlen := List.length_eraseIdx_of_lt hi
    have hmem : executionId ∈ q.queue.map QueueItem.executionId :=
      List.mem_map.mpr ⟨_, List.getElem_mem hi, hid⟩
    rw [heq, resolved_resolveNext]
    simp only [hmem, true_imp_iff, List.append_right_eq_self]
    cases hq : q.queue.eraseIdx index with
    | nil =>
      rw [hq] at hlen
      simp at hlen ⊢
      omega
    | cons item queue =>
      rw [hq] at hlen
      simp at hlen ⊢
      omega

/-- Removing every waiting execution lets one through exactly when more than one waits. -/
theorem removeAll_resolved_iff (q : ConcurrencyQueue) :
    q.removeAll.resolved = q.resolved ↔ q.queue.length ≤ 1 := by
  cases hq : q.queue with
  | nil => simp [ConcurrencyQueue.removeAll, getAll, hq]
  | cons item queue =>
    have hall : ∃ ids, q.getAll = item.executionId :: ids := by
      simp [getAll, hq, List.eraseDups_cons]
    obtain ⟨ids, hids⟩ := hall
    have hfirst := remove_resolved_iff q item.executionId
    simp only [hq, List.map_cons, List.mem_cons, true_or, true_imp_iff, List.length_cons] at hfirst
    have hprefix := prefix_foldl_remove ids (q.remove item.executionId)
    constructor
    · intro heq
      unfold ConcurrencyQueue.removeAll at heq
      rw [hids, List.foldl_cons] at heq
      -- the first removal already lets one through if another one waits
      have hback := (prefix_remove q item.executionId).eq_of_length_le
        (heq ▸ hprefix.length_le)
      have hone := hfirst.mp hback.symm
      simp only [List.length_cons]
      omega
    · intro hle
      have hone : queue = [] := List.eq_nil_of_length_eq_zero (by simpa using hle)
      simp [ConcurrencyQueue.removeAll, getAll, hq, hone, List.eraseDups_cons,
        hfirst.mpr (by simp [hone])]

end Operations

end ConcurrencyQueue

end N8n.Concurrency
