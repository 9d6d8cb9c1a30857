import Mathlib.Data.Finset.Card
import Mathlib.Data.List.Nodup

/-!
# Sets that keep the order of their elements

A finite set that lists its elements in the order in which they were first added.

## Main definitions

* `OrderedSet`: the sets, with their elements distinct
* `OrderedSet.insert`, `OrderedSet.ofList`: adding elements
* `OrderedSet.union`, `OrderedSet.inter`, `OrderedSet.diff`: the operations on two sets
* `OrderedSet.size`, `OrderedSet.first?`: the number of elements, and the first one

## Main results

* `OrderedSet.mem_union`, `OrderedSet.mem_inter`, `OrderedSet.mem_diff`: the laws of sets
* `OrderedSet.eq_of_size_le_one`: a set with at most one element has only its first one
-/

universe u

structure OrderedSet (α : Type u) where
  elements : List α
  nodup : elements.Nodup

namespace OrderedSet

variable {α : Type u} {s : OrderedSet α}

instance : Membership α (OrderedSet α) := ⟨fun s a => a ∈ s.elements⟩

theorem mem_def {a : α} : a ∈ s ↔ a ∈ s.elements := Iff.rfl

instance [DecidableEq α] (s : OrderedSet α) (a : α) : Decidable (a ∈ s) :=
  inferInstanceAs (Decidable (a ∈ s.elements))

instance [DecidableEq α] : DecidableEq (OrderedSet α) := fun s t =>
  decidable_of_iff (s.elements = t.elements) ⟨fun h => by cases s; cases t; cases h; rfl,
    congrArg elements⟩

theorem nodup_eraseDups [BEq α] [LawfulBEq α] (l : List α) : l.eraseDups.Nodup := by
  induction hn : l.length using Nat.strong_induction_on generalizing l with
  | _ n ih =>
    cases l with
    | nil => simp
    | cons a l =>
      rw [List.eraseDups_cons, List.nodup_cons]
      refine ⟨fun ha => by simpa using List.mem_eraseDups.mp ha, ih _ ?_ _ rfl⟩
      rw [← hn, List.length_cons]
      exact Nat.lt_succ_of_le (List.length_filter_le _ _)

def empty : OrderedSet α := ⟨[], .nil⟩

@[simp] theorem not_mem_empty {a : α} : a ∉ (empty : OrderedSet α) := List.not_mem_nil

def size (s : OrderedSet α) : ℕ := s.elements.length

def first? (s : OrderedSet α) : Option α := s.elements.head?

theorem mem_of_first? {a : α} (h : s.first? = some a) : a ∈ s :=
  List.mem_of_mem_head? h

theorem eq_of_size_le_one {a b : α} (h : s.size ≤ 1) (ha : s.first? = some a) (hb : b ∈ s) :
    b = a := by
  obtain ⟨_ | ⟨c, _ | ⟨d, l⟩⟩, hn⟩ := s
  · exact absurd hb List.not_mem_nil
  · cases ha
    exact List.mem_singleton.mp hb
  · exact absurd h (by simp [size])

section Operations

variable [DecidableEq α]

def insert (s : OrderedSet α) (a : α) : OrderedSet α where
  elements := if a ∈ s.elements then s.elements else s.elements ++ [a]
  nodup := by
    split_ifs with h
    · exact s.nodup
    · exact s.nodup.append (List.nodup_singleton a) (by simpa using h)

@[simp] theorem mem_insert {a b : α} : b ∈ s.insert a ↔ b = a ∨ b ∈ s := by
  rw [mem_def, mem_def, insert]
  split_ifs with h
  · exact ⟨.inr, fun hb => hb.elim (fun he => he ▸ h) id⟩
  · rw [List.mem_append, List.mem_singleton, or_comm]

def delete (s : OrderedSet α) (a : α) : OrderedSet α := ⟨s.elements.erase a, s.nodup.erase a⟩

@[simp] theorem mem_delete {a b : α} : b ∈ s.delete a ↔ b ≠ a ∧ b ∈ s :=
  s.nodup.mem_erase_iff

/-- Add the elements of a list. -/
def insertAll (s : OrderedSet α) (l : List α) : OrderedSet α := l.foldl insert s

@[simp] theorem mem_insertAll {l : List α} {b : α} : b ∈ s.insertAll l ↔ b ∈ s ∨ b ∈ l := by
  induction l generalizing s with
  | nil => simp [insertAll]
  | cons a l ih =>
    rw [show s.insertAll (a :: l) = (s.insert a).insertAll l from rfl, ih, mem_insert,
      List.mem_cons, or_assoc, or_left_comm]

def ofList (l : List α) : OrderedSet α := empty.insertAll l

@[simp] theorem mem_ofList {l : List α} {b : α} : b ∈ ofList l ↔ b ∈ l := by
  simp [ofList]

def union (s t : OrderedSet α) : OrderedSet α := (ofList s.elements).insertAll t.elements

def inter (s t : OrderedSet α) : OrderedSet α :=
  ⟨s.elements.filter (· ∈ t), s.nodup.filter _⟩

def diff (s t : OrderedSet α) : OrderedSet α :=
  ⟨s.elements.filter (· ∉ t), s.nodup.filter _⟩

variable {t : OrderedSet α} {a : α}

@[simp] theorem mem_union : a ∈ s.union t ↔ a ∈ s ∨ a ∈ t := by
  simp [union, mem_def (s := s), mem_def (s := t)]

@[simp] theorem mem_inter : a ∈ s.inter t ↔ a ∈ s ∧ a ∈ t := by
  simp [inter, mem_def (s := ⟨_, _⟩)]

@[simp] theorem mem_diff : a ∈ s.diff t ↔ a ∈ s ∧ a ∉ t := by
  simp [diff, mem_def (s := ⟨_, _⟩)]

/-- A set within a finite set has no more elements. -/
theorem size_le_card {nodes : Finset α} (h : ∀ a ∈ s, a ∈ nodes) : s.size ≤ nodes.card := by
  rw [size, ← List.toFinset_card_of_nodup s.nodup]
  exact Finset.card_le_card fun a ha => h a (List.mem_toFinset.mp ha)

end Operations

end OrderedSet
