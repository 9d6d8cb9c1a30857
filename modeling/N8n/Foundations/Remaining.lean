import Mathlib.Data.Finset.Card

/-!
# What a search has left

A search over finitely many nodes visits fewer of them the more it has seen. The number of those it
has not seen bounds its depth.

## Main results

* `card_le_of_seen`, `card_lt_of_seen`: what is left when more has been seen, or a new node
-/

namespace Remaining

variable {α : Type*} {all : Finset α} {left left' : α → Prop} [DecidablePred left]
  [DecidablePred left'] {a : α}

/-- Nothing is left that was not left before. -/
theorem card_le_of_seen (h : ∀ x, left' x → left x) :
    (all.filter left').card ≤ (all.filter left).card := by
  apply Finset.card_le_card
  exact Finset.monotone_filter_right all fun x _ => h x

/-- A node that was left has been seen since. -/
theorem card_lt_of_seen (h : ∀ x, left' x → left x) (ha : a ∈ all) (hleft : left a)
    (hseen : ¬ left' a) : (all.filter left').card < (all.filter left).card := by
  apply Finset.card_lt_card
  refine ⟨Finset.monotone_filter_right all fun x _ => h x, ?_⟩
  intro hsub
  exact hseen (Finset.mem_filter.mp (hsub (Finset.mem_filter.mpr ⟨ha, hleft⟩))).2

end Remaining
