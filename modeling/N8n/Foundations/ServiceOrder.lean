import Mathlib.Data.Set.Monotone
import Mathlib.Order.Bounds.Basic

/-!
# First come, first served

A queue whose members wait under keys. Every member was created at a time; some have been served,
in an order. The order is that of creation if the served ones were created one after the other,
and before all that still wait.

## Main definitions

* `InOrder`: the members are served in the order in which they were created

## Main results

* `InOrder.serve`: serving the member under the least key keeps the order
* `InOrder.create`: a new member under a key above all others keeps it
-/

namespace ServiceOrder

variable {κ : Type*} [LinearOrder κ]

/-- The members `served` so far, by the times of their creation, and those `waiting`, which were
created in the order of their keys, came in the order of creation. -/
structure InOrder (served : List ℕ) (waiting : Set κ) (created : κ → ℕ) (clock : ℕ) : Prop where
  ordered : served.Pairwise (· < ·)
  before : ∀ t ∈ served, ∀ k ∈ waiting, t < created k
  strictMono : StrictMonoOn created waiting
  served_lt : ∀ t ∈ served, t < clock
  waiting_lt : ∀ k ∈ waiting, created k < clock

namespace InOrder

variable {served : List ℕ} {waiting waiting' : Set κ} {created : κ → ℕ} {clock : ℕ} {k : κ}

/-- A queue in which nothing has been served yet. -/
theorem nil (hcreated : StrictMonoOn created waiting) (hclock : ∀ k ∈ waiting, created k < clock) :
    InOrder [] waiting created clock where
  ordered := List.Pairwise.nil
  before _ ht := absurd ht List.not_mem_nil
  strictMono := hcreated
  served_lt _ ht := absurd ht List.not_mem_nil
  waiting_lt := hclock

section InOrder

variable (h : InOrder served waiting created clock)
include h

/-- Members may leave. -/
theorem mono (hsub : waiting' ⊆ waiting) : InOrder served waiting' created clock where
  ordered := h.ordered
  before t ht k hk := h.before t ht k (hsub hk)
  strictMono := h.strictMono.mono hsub
  served_lt := h.served_lt
  waiting_lt k hk := h.waiting_lt k (hsub hk)

theorem later {clock' : ℕ} (hle : clock ≤ clock') : InOrder served waiting created clock' where
  ordered := h.ordered
  before := h.before
  strictMono := h.strictMono
  served_lt t ht := (h.served_lt t ht).trans_le hle
  waiting_lt k hk := (h.waiting_lt k hk).trans_le hle

/-- **The member under the least key is served.** -/
theorem serve (hk : IsLeast waiting k) (hsub : waiting' ⊆ waiting) (hnot : k ∉ waiting') :
    InOrder (served ++ [created k]) waiting' created clock := by
  refine ⟨?_, ?_, h.strictMono.mono hsub, ?_, fun k hk => h.waiting_lt k (hsub hk)⟩
  · rw [List.pairwise_append]
    refine ⟨h.ordered, List.pairwise_singleton _ _, ?_⟩
    intro t ht t' ht'
    rw [List.mem_singleton.mp ht']
    exact h.before t ht k hk.1
  · intro t ht k' hk'
    rcases List.mem_append.mp ht with ht | ht
    · exact h.before t ht k' (hsub hk')
    · -- all the others wait under greater keys
      rw [List.mem_singleton.mp ht]
      apply h.strictMono hk.1 (hsub hk')
      apply lt_of_le_of_ne (hk.2 (hsub hk'))
      rintro rfl
      exact hnot hk'
  · intro t ht
    rcases List.mem_append.mp ht with ht | ht
    · exact h.served_lt t ht
    · rw [List.mem_singleton.mp ht]
      exact h.waiting_lt k hk.1

/-- **A member is created** under a key above all others. -/
theorem create (hk : ∀ k' ∈ waiting, k' < k) :
    InOrder served (insert k waiting) (Function.update created k clock) (clock + 1) := by
  have hold : ∀ k' ∈ waiting, Function.update created k clock k' = created k' := by
    intro k' hk'
    exact Function.update_of_ne (hk k' hk').ne _ _
  have hnew : Function.update created k clock k = clock := Function.update_self _ _ _
  refine ⟨h.ordered, ?_, ?_, fun t ht => (h.served_lt t ht).trans (Nat.lt_succ_self _), ?_⟩
  · rintro t ht k' (rfl | hk')
    · rw [hnew]
      exact h.served_lt t ht
    · rw [hold k' hk']
      exact h.before t ht k' hk'
  · rintro a (rfl | ha) b (rfl | hb) hab
    · exact absurd hab (lt_irrefl _)
    · exact absurd hab (hk b hb).not_gt
    · rw [hnew, hold a ha]
      exact h.waiting_lt a ha
    · rw [hold a ha, hold b hb]
      exact h.strictMono ha hb hab
  · rintro k' (rfl | hk')
    · rw [hnew]
      exact Nat.lt_succ_self _
    · rw [hold k' hk']
      exact (h.waiting_lt k' hk').trans (Nat.lt_succ_self _)

end InOrder

end InOrder

end ServiceOrder
