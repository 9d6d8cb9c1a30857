import Mathlib.Data.Finset.Lattice.Fold
import Mathlib.Data.List.Count
import Mathlib.Order.Interval.Finset.Basic

/-!
# Covers by intervals

A list of sets of positions, each without gaps. A position is covered as often as there are sets it
is in, and the cover has at least as many sets. It has no more than its most covered position asks
for only if no position is covered less than one before it and one after it.

## Main definitions

* `depth`: how often a position is covered
* `Convex`: a set without gaps
* `Valley`: a position lies lower than one before it and one after it
* `Nested`: every set has the positions of the sets after it

## Main results

* `depth_add_depth_le`: the sets that cover two positions also cover those between, but for as many
  as there are sets
* `not_valley_of_length_le`: a cover with no set too many has no valley
* `Nested.exists_depth_eq`: nested sets have a common position
-/

namespace IntervalCover

variable {ι : Type*} [LinearOrder ι]

/-- The number of sets with the position. -/
def depth (sets : List (Finset ι)) (i : ι) : ℕ := sets.countP (i ∈ ·)

def Convex (s : Finset ι) : Prop := ∀ {i j k}, i ∈ s → k ∈ s → i < j → j < k → j ∈ s

def Valley (n : ι → ℕ) : Prop := ∃ i j k, i < j ∧ j < k ∧ n j < n i ∧ n j < n k

def Nested (sets : List (Finset ι)) : Prop := sets.Pairwise fun s later => later ⊆ s

variable {sets : List (Finset ι)} {n : ι → ℕ}

theorem depth_cons (s : Finset ι) (i : ι) :
    depth (s :: sets) i = depth sets i + if i ∈ s then 1 else 0 := by
  simp [depth, List.countP_cons]

theorem depth_le_length (i : ι) : depth sets i ≤ sets.length := List.countP_le_length

/-- **Two positions and one between them.** -/
theorem depth_add_depth_le (h : ∀ s ∈ sets, Convex s) {i j k : ι} (hij : i < j) (hjk : j < k) :
    depth sets i + depth sets k ≤ sets.length + depth sets j := by
  induction sets with
  | nil => simp [depth]
  | cons s sets ih =>
    have ih := ih fun s' hs' => h s' (List.mem_cons_of_mem _ hs')
    -- a set with both positions has the one between
    have hs : i ∈ s → k ∈ s → j ∈ s := fun hi hk => h s List.mem_cons_self hi hk hij hjk
    rw [depth_cons, depth_cons, depth_cons, List.length_cons]
    by_cases hi : i ∈ s
    · by_cases hk : k ∈ s
      · rw [if_pos hi, if_pos hk, if_pos (hs hi hk)]
        omega
      · rw [if_pos hi, if_neg hk]
        omega
    · rw [if_neg hi]
      split_ifs <;> omega

/-- A position that is in every set rules a valley out. -/
theorem not_valley_of_length_le (h : ∀ s ∈ sets, Convex s) {m : ι}
    (hm : sets.length ≤ depth sets m) : ¬ Valley (depth sets) := by
  rintro ⟨i, j, k, hij, hjk, hi, hk⟩
  have hle : depth sets i ≤ sets.length := depth_le_length i
  rcases lt_trichotomy m j with hmj | rfl | hjm
  · have hbound := depth_add_depth_le h hmj hjk
    omega
  · omega
  · have hbound := depth_add_depth_le h hij hjm
    omega

theorem Nested.exists_depth_eq (h : Nested sets) (hne : ∀ s ∈ sets, s.Nonempty)
    (hsets : sets ≠ []) : ∃ i, depth sets i = sets.length := by
  obtain ⟨i, hi⟩ := hne _ (List.getLast_mem hsets)
  refine ⟨i, List.countP_eq_length.mpr fun s hs => decide_eq_true ?_⟩
  -- the last set is part of every other one
  have hsplit := List.dropLast_append_getLast hsets
  rw [← hsplit] at hs
  rcases List.mem_append.mp hs with hs | hs
  · unfold Nested at h
    rw [← hsplit, List.pairwise_append] at h
    exact h.2.2 s hs _ (List.mem_singleton_self _) hi
  · rwa [List.mem_singleton.mp hs]

/-- The positions of a set less are lower by one where all of its positions were. -/
theorem not_valley_of_sub {n' : ι → ℕ} (h : ¬ Valley n) {s : Finset ι} (hs : ∀ i, i ∈ s ↔ 0 < n i)
    (hn : ∀ i, n i = n' i + if i ∈ s then 1 else 0) : ¬ Valley n' := by
  have hlow : ∀ i, 0 < n' i → n i = n' i + 1 := by
    intro i hi
    have hn := hn i
    rw [hn, if_pos ((hs i).mpr (by omega))]
  rintro ⟨i, j, k, hij, hjk, hi, hk⟩
  have hi' := hlow i (by omega)
  have hk' := hlow k (by omega)
  have hj' := hn j
  by_cases hj : j ∈ s
  · rw [if_pos hj] at hj'
    exact h ⟨i, j, k, hij, hjk, by omega, by omega⟩
  · rw [if_neg hj] at hj'
    exact h ⟨i, j, k, hij, hjk, by omega, by omega⟩

end IntervalCover
