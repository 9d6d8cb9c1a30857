import Mathlib.Data.List.Sort

/-!
# Pages of a list that two stores hold

A sorted list is split between two stores. A page of it is made from the first rows of each store:
they are sorted, and as many as the page takes are kept. That is the page of the whole list, as a
row that a store did not give comes after as many rows as there are on the page.

## Main definitions

* `rowsAfter`: the rows of a sorted list after a position in it

## Main results

* `take_mergeSort_take`: a page of the rows of the stores is a page of the list
* `more_rows_iff`: the list has more rows than the page when the candidates or a store have
* `rowsAfter_split`: the rows after the last one of a prefix are the rest
-/

namespace MergedPages

open List (Pairwise Perm)

variable {α : Type*} {le : α → α → Bool} {n : ℕ} {rows : List α}

section Page

variable (p : α → Bool)

/-- The rows of one kind on a page, and some that come after it. -/
theorem take_filter (front rest : List α) (hfront : front.length ≤ n) :
    ((front ++ rest).filter p).take n =
      front.filter p ++ (rest.filter p).take (n - (front.filter p).length) := by
  have hlength : (front.filter p).length ≤ n := (List.length_filter_le p front).trans hfront
  rw [List.filter_append, List.take_append, List.take_of_length_le hlength]

/-- What the two stores give for a page: the page, and rows that come after it. -/
theorem exists_candidates (front rest : List α) (hfront : front.length ≤ n) :
    ∃ extra, (∀ row ∈ extra, row ∈ rest) ∧
      Perm (((front ++ rest).filter p).take n ++ ((front ++ rest).filter (! p ·)).take n)
        (front ++ extra) := by
  rw [take_filter p front rest hfront, take_filter (! p ·) front rest hfront]
  refine ⟨(rest.filter p).take (n - (front.filter p).length) ++
    (rest.filter (! p ·)).take (n - (front.filter (! p ·)).length), fun row hrow => ?_, ?_⟩
  · obtain hrow | hrow := List.mem_append.mp hrow
    · exact List.mem_of_mem_filter (List.mem_of_mem_take hrow)
    · exact List.mem_of_mem_filter (List.mem_of_mem_take hrow)
  · have hparts : Perm (front.filter p ++ front.filter (! p ·)) front :=
      List.filter_append_perm p front
    refine Perm.trans ?_ (hparts.append_right _)
    rw [List.append_assoc, List.append_assoc]
    refine (Perm.refl _).append ?_
    rw [← List.append_assoc, ← List.append_assoc]
    exact List.perm_append_comm.append_right _

/-- **A page of two stores**: the first rows of each, sorted and cut, are the first rows of the
list. -/
theorem take_mergeSort_take (hsorted : rows.Pairwise (fun a b => le a b))
    (htrans : ∀ a b c, le a b → le b c → le a c) (htotal : ∀ a b, le a b || le b a)
    (hanti : ∀ a ∈ rows, ∀ b ∈ rows, le a b → le b a → a = b) :
    (((rows.filter p).take n ++ (rows.filter (! p ·)).take n).mergeSort le).take n =
      rows.take n := by
  obtain ⟨extra, hextra, hperm⟩ := exists_candidates p (rows.take n) (rows.drop n)
    (List.length_take_le n rows)
  rw [List.take_append_drop] at hperm
  have hmem : ∀ row ∈ extra, row ∈ rows := fun row hrow => List.mem_of_mem_drop (hextra row hrow)
  -- the page comes first, whatever order the others have
  have hsort : ((rows.filter p).take n ++ (rows.filter (! p ·)).take n).mergeSort le =
      rows.take n ++ extra.mergeSort le := by
    refine Perm.eq_of_pairwise ?_ (List.pairwise_mergeSort htrans htotal _) ?_ ?_
    · intro a b ha hb
      refine hanti a ?_ b ?_
      · obtain ha | ha := List.mem_append.mp (List.mem_mergeSort.mp ha)
        · exact List.mem_of_mem_filter (List.mem_of_mem_take ha)
        · exact List.mem_of_mem_filter (List.mem_of_mem_take ha)
      · obtain hb | hb := List.mem_append.mp hb
        · exact List.mem_of_mem_take hb
        · exact hmem b (List.mem_mergeSort.mp hb)
    · refine List.pairwise_append.mpr ⟨hsorted.sublist (List.take_sublist n rows),
        List.pairwise_mergeSort htrans htotal _, fun a ha b hb => ?_⟩
      have hb' := hextra b (List.mem_mergeSort.mp hb)
      rw [← List.take_append_drop n rows] at hsorted
      exact (List.pairwise_append.mp hsorted).2.2 a ha b hb'
    · refine (List.mergeSort_perm _ le).trans (hperm.trans ?_)
      exact (List.mergeSort_perm extra le).symm.append_left _
  rw [hsort]
  by_cases hn : n ≤ rows.length
  · rw [List.take_append_of_le_length (List.length_take_of_le hn).ge,
      List.take_of_length_le (List.length_take_of_le hn).le]
  · -- the page is the whole list, and there are no others
    have hall : rows.drop n = [] := List.drop_eq_nil_of_le (not_le.mp hn).le
    have hnone : extra = [] := List.eq_nil_iff_forall_not_mem.mpr fun row hrow =>
      List.not_mem_nil (hall ▸ hextra row hrow)
    rw [hnone, List.mergeSort_nil, List.append_nil, List.take_take, min_self]

theorem length_filter_add (rows : List α) :
    (rows.filter p).length + (rows.filter (! p ·)).length = rows.length := by
  rw [← List.length_append]
  exact (List.filter_append_perm p rows).length_eq

/-- There are rows after a page when there are more candidates than it takes, or a store has more
rows than it gave. -/
theorem more_rows_iff : n < ((rows.filter p).take n ++ (rows.filter (! p ·)).take n).length ∨
    n < (rows.filter p).length ∨ n < (rows.filter (! p ·)).length ↔ n < rows.length := by
  have h := length_filter_add p rows
  rw [List.length_append, List.length_take, List.length_take]
  omega

end Page

/-! ## Positions -/

def rowsAfter (lt : α → α → Bool) (position : Option α) (rows : List α) : List α :=
  rows.filter fun row => position.all (lt · row)

variable {lt : α → α → Bool}

theorem rowsAfter_none : rowsAfter lt none rows = rows :=
  List.filter_eq_self.mpr fun _ _ => rfl

/-- **The rest of a list**: the rows after the last one of a prefix. -/
theorem rowsAfter_split {front rest : List α}
    (hsorted : (front ++ rest).Pairwise (fun a b => lt a b))
    (hirrefl : ∀ a, lt a a = false) (hasymm : ∀ a b, lt a b → lt b a = false) :
    rowsAfter lt front.getLast? (front ++ rest) = rest := by
  obtain rfl | ⟨front, last, rfl⟩ := front.eq_nil_or_concat
  · exact rowsAfter_none
  · rw [List.concat_eq_append] at hsorted ⊢
    obtain ⟨hfront, -, hacross⟩ := List.pairwise_append.mp hsorted
    have hlast : (front ++ [last]).getLast? = some last := List.getLast?_concat
    have hdropped : (front ++ [last]).filter (fun row => (some last).all (lt · row)) = [] := by
      refine List.filter_eq_nil_iff.mpr fun row hrow => ?_
      obtain hrow | hrow := List.mem_append.mp hrow
      · have hlt := (List.pairwise_append.mp hfront).2.2 row hrow last (List.mem_singleton_self _)
        exact Bool.eq_false_iff.mp (hasymm row last hlt)
      · rw [List.mem_singleton.mp hrow]
        exact Bool.eq_false_iff.mp (hirrefl last)
    have hkept : rest.filter (fun row => (some last).all (lt · row)) = rest :=
      List.filter_eq_self.mpr fun row hrow =>
        hacross last (List.mem_append_right _ (List.mem_singleton_self _)) row hrow
    rw [hlast, rowsAfter, List.filter_append, hdropped, hkept, List.nil_append]

end MergedPages
