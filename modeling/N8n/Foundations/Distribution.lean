import Mathlib.Data.List.Forall2
import Mathlib.Data.List.Nodup

/-!
# Distributions of lists

The elements of some lists are distributed over other lists: each goes to the list that is its
destination, where it is found exactly once, and those from the same list keep their order.

## Main definitions

* `Distributes`: lists hold the elements that are meant for them, in order
* `meant`: the elements that are meant for a list, and `places` their positions

## Main results

* `distributes_of_meant`: lists with the elements that are meant for them form a distribution
* `Distributes.length_eq`: every distribution has as many elements in a list as are meant for it
-/

namespace Distribution

variable {α β : Type*}

/-- The first `n` lists of `before` are distributed over the lists of `after`. Each list there holds
the elements from a list of positions, every position of an element with this destination once, and
positions of the same list in order. `R` relates an element to what it is afterwards. -/
def Distributes (n : ℕ) (before : ℕ → List α) (dest : ℕ → α → ℕ) (R : α → β → Prop)
    (after : ℕ → List β) : Prop :=
  ∃ position : ℕ → List (ℕ × ℕ), ∀ k,
    List.Forall₂ (fun p y => ∃ x, (before p.1)[p.2]? = some x ∧ R x y) (position k) (after k) ∧
    (∀ i j, (i, j) ∈ position k ↔ i < n ∧ ∃ x, (before i)[j]? = some x ∧ dest i x = k) ∧
    (position k).Pairwise fun p q => p.1 = q.1 → p.2 < q.2

section Places

variable (before : ℕ → List α) (dest : ℕ → α → ℕ)

/-- The elements of a list that are meant for a destination, with their positions. -/
def marked (i k : ℕ) : List ((ℕ × ℕ) × α) :=
  ((before i).zipIdx.filter fun x => dest i x.1 = k).map fun x => ((i, x.2), x.1)

/-- The positions of the elements in the first `n` lists that are meant for a destination. -/
def places (n k : ℕ) : List (ℕ × ℕ) :=
  ((List.range n).flatMap fun i => marked before dest i k).map Prod.fst

/-- The elements of the first `n` lists that are meant for a destination. -/
def meant (n k : ℕ) : List α :=
  (List.range n).flatMap fun i => (before i).filter fun x => dest i x = k

variable {before dest} {n i j k : ℕ}

theorem mem_marked {p : ℕ × ℕ} {x : α} : (p, x) ∈ marked before dest i k ↔
    p.1 = i ∧ (before i)[p.2]? = some x ∧ dest i x = k := by
  unfold marked
  constructor
  · intro h
    obtain ⟨⟨y, j⟩, hy, hp⟩ := List.mem_map.mp h
    cases hp
    obtain ⟨hmem, hdest⟩ := List.mem_filter.mp hy
    exact ⟨rfl, List.mem_zipIdx_iff_getElem?.mp hmem, of_decide_eq_true hdest⟩
  · rintro ⟨rfl, hx, hdest⟩
    refine List.mem_map.mpr ⟨(x, p.2), List.mem_filter.mpr ⟨?_, decide_eq_true hdest⟩, rfl⟩
    exact List.mem_zipIdx_iff_getElem?.mpr hx

theorem mem_places : (i, j) ∈ places before dest n k ↔
    i < n ∧ ∃ x, (before i)[j]? = some x ∧ dest i x = k := by
  unfold places
  rw [List.mem_map]
  constructor
  · rintro ⟨⟨p, x⟩, hmem, rfl⟩
    obtain ⟨i', hi', hmarked⟩ := List.mem_flatMap.mp hmem
    obtain ⟨rfl, hx⟩ := mem_marked.mp hmarked
    exact ⟨List.mem_range.mp hi', x, hx⟩
  · rintro ⟨hi, x, hx⟩
    refine ⟨((i, j), x), List.mem_flatMap.mpr ⟨i, List.mem_range.mpr hi, ?_⟩, rfl⟩
    exact mem_marked.mpr ⟨rfl, hx⟩

theorem pairwise_marked : (marked before dest i k).Pairwise fun p q => p.1.2 < q.1.2 := by
  unfold marked
  rw [List.pairwise_map]
  apply List.Pairwise.sublist List.filter_sublist
  have hindexes : ((before i).zipIdx.map Prod.snd).Pairwise (· < ·) := by
    rw [List.zipIdx_map_snd]
    exact List.pairwise_lt_range'
  exact List.pairwise_map.mp hindexes

theorem pairwise_places :
    (places before dest n k).Pairwise fun p q => p.1 = q.1 → p.2 < q.2 := by
  unfold places
  rw [List.pairwise_map, List.pairwise_flatMap]
  constructor
  · intro i _
    apply pairwise_marked.imp
    intro p q hlt _
    exact hlt
  · apply List.nodup_range.imp
    intro i i' hne p hp q hq heq
    -- different lists have no position in common
    rw [(mem_marked.mp hp).1, (mem_marked.mp hq).1] at heq
    exact absurd heq hne

/-- The elements meant for a list are its own, if no other list has any for it. -/
theorem meant_eq_filter (hk : k < n) (h : ∀ i, i ≠ k → ∀ x ∈ before i, dest i x ≠ k) :
    meant before dest n k = (before k).filter fun x => dest k x = k := by
  unfold meant
  have hother : ∀ i, i ≠ k → (before i).filter (fun x => dest i x = k) = [] := by
    intro i hi
    apply List.filter_eq_nil_iff.mpr
    intro x hx
    rw [decide_eq_true_iff]
    exact h i hi x hx
  obtain ⟨m, rfl⟩ := Nat.exists_eq_add_of_lt hk
  have hbefore :
      (List.range k).flatMap (fun i => (before i).filter fun x => dest i x = k) = [] := by
    apply List.flatMap_eq_nil_iff.mpr
    intro i hi
    exact hother i (Nat.ne_of_lt (List.mem_range.mp hi))
  have hafter : ((List.range m).map fun i => k + 1 + i).flatMap
      (fun i => (before i).filter fun x => dest i x = k) = [] := by
    apply List.flatMap_eq_nil_iff.mpr
    intro i hi
    obtain ⟨j, -, rfl⟩ := List.mem_map.mp hi
    exact hother _ (by omega)
  rw [Nat.add_right_comm, List.range_add, List.range_succ, List.flatMap_append, List.flatMap_append,
    hbefore, hafter, List.flatMap_singleton, List.nil_append, List.append_nil]

theorem map_snd_marked :
    (marked before dest i k).map Prod.snd = (before i).filter fun x => dest i x = k := by
  have hfst : (before i).zipIdx.map Prod.fst = before i := List.zipIdx_map_fst 0 _
  unfold marked
  conv_rhs => rw [← hfst, List.filter_map]
  rw [List.map_map]
  rfl

theorem map_snd_flatMap_marked :
    ((List.range n).flatMap fun i => marked before dest i k).map Prod.snd =
      meant before dest n k := by
  unfold meant
  rw [List.map_flatMap]
  exact List.flatMap_congr fun i _ => map_snd_marked

theorem length_places : (places before dest n k).length = (meant before dest n k).length := by
  rw [← map_snd_flatMap_marked]
  unfold places
  rw [List.length_map, List.length_map]

/-- The elements at the positions for a destination are those that are meant for it. -/
theorem forall₂_places {R : α → β → Prop} {ys : List β}
    (h : List.Forall₂ R (meant before dest n k) ys) :
    List.Forall₂ (fun p y => ∃ x, (before p.1)[p.2]? = some x ∧ R x y)
      (places before dest n k) ys := by
  rw [← map_snd_flatMap_marked, List.forall₂_map_left_iff] at h
  unfold places
  rw [List.forall₂_map_left_iff]
  have hmem : ∀ x ∈ (List.range n).flatMap fun i => marked before dest i k,
      (before x.1.1)[x.1.2]? = some x.2 := by
    intro x hx
    obtain ⟨i, -, hmarked⟩ := List.mem_flatMap.mp hx
    obtain ⟨rfl, hget, -⟩ := mem_marked.mp hmarked
    exact hget
  apply ((List.forall₂_and_left _ _).mpr ⟨hmem, h⟩).imp
  rintro x y ⟨hx, hR⟩
  exact ⟨x.2, hx, hR⟩

end Places

variable {n : ℕ} {before : ℕ → List α} {dest : ℕ → α → ℕ} {R : α → β → Prop} {after : ℕ → List β}

/-- **Lists with the elements that are meant for them** are a distribution. -/
theorem distributes_of_meant
    (h : ∀ k, List.Forall₂ R (meant before dest n k) (after k)) :
    Distributes n before dest R after :=
  ⟨places before dest n, fun k => ⟨forall₂_places (h k), fun _ _ => mem_places, pairwise_places⟩⟩

/-- **A distribution is complete**: a list has as many elements as are meant for it. -/
theorem Distributes.length_eq (h : Distributes n before dest R after) (k : ℕ) :
    (after k).length = (meant before dest n k).length := by
  obtain ⟨position, hposition⟩ := h
  obtain ⟨hforall, hmem, hpairwise⟩ := hposition k
  have hnodup : ∀ {l : List (ℕ × ℕ)}, (l.Pairwise fun p q => p.1 = q.1 → p.2 < q.2) → l.Nodup := by
    intro l hl
    apply hl.imp
    rintro p q hlt rfl
    exact Nat.lt_irrefl _ (hlt rfl)
  have hperm : (position k).Perm (places before dest n k) := by
    rw [List.perm_ext_iff_of_nodup (hnodup hpairwise) (hnodup pairwise_places)]
    rintro ⟨i, j⟩
    rw [hmem, mem_places]
  rw [← hforall.length_eq, hperm.length_eq, length_places]

end Distribution
