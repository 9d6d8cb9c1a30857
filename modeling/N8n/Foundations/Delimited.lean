import Mathlib.Algebra.BigOperators.Group.List.Basic
import Mathlib.Algebra.Ring.Nat

/-!
# Delimited parts

A text that is put together from parts is taken apart again in one way only where each part says
where it ends: by a separator that it does not contain, or by a length that stands before it.

## Main results

* `Delimited.eq_of_append_separator`: parts that end at a separator
* `Delimited.eq_of_append_weight`: parts of a known weight
-/

namespace Delimited

variable {α : Type*}

/-- A text is cut at its first separator in one way. -/
theorem eq_of_append_separator {c : α} {a b x y : List α} (ha : c ∉ a) (hb : c ∉ b)
    (h : a ++ c :: x = b ++ c :: y) : a = b ∧ x = y := by
  induction a generalizing b with
  | nil =>
    cases b with
    | nil => exact ⟨rfl, (List.cons.inj h).2⟩
    | cons d b =>
      obtain ⟨rfl, -⟩ := List.cons.inj h
      exact absurd List.mem_cons_self hb
  | cons d a ih =>
    cases b with
    | nil =>
      obtain ⟨rfl, -⟩ := List.cons.inj h
      exact absurd List.mem_cons_self ha
    | cons d' b =>
      obtain ⟨rfl, hrest⟩ := List.cons.inj h
      have ha' : c ∉ a := fun hm => ha (List.mem_cons_of_mem _ hm)
      have hb' : c ∉ b := fun hm => hb (List.mem_cons_of_mem _ hm)
      obtain ⟨rfl, hxy⟩ := ih ha' hb' hrest
      exact ⟨rfl, hxy⟩

/-- Two beginnings of one text that have the same weight are the same. -/
theorem eq_of_append_weight {weight : α → ℕ} (hpos : ∀ c, 0 < weight c) {a b x y : List α}
    (h : a ++ x = b ++ y) (hweight : (a.map weight).sum = (b.map weight).sum) :
    a = b ∧ x = y := by
  induction a generalizing b with
  | nil =>
    cases b with
    | nil => exact ⟨rfl, h⟩
    | cons c b =>
      have := hpos c
      simp only [List.map_nil, List.sum_nil, List.map_cons, List.sum_cons] at hweight
      omega
  | cons c a ih =>
    cases b with
    | nil =>
      have := hpos c
      simp only [List.map_nil, List.sum_nil, List.map_cons, List.sum_cons] at hweight
      omega
    | cons d b =>
      obtain ⟨rfl, hrest⟩ := List.cons.inj h
      simp only [List.map_cons, List.sum_cons, Nat.add_left_cancel_iff] at hweight
      obtain ⟨rfl, hxy⟩ := ih hrest hweight
      exact ⟨rfl, hxy⟩

end Delimited
