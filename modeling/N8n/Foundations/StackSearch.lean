import N8n.Foundations.ComponentSearch
import N8n.Foundations.OrderedSet

/-!
# Searching with a stack

A search for a node of a directed graph that keeps the nodes it has seen and a stack of the nodes to
look at. A node may be on the stack more than once, and may be looked at more than once.

## Main definitions

* `State`: what is seen, and the stack
* `search`: the search
* `potential`: a number that every step lowers

## Main results

* `search_isSome`: the search ends within the potential of its state
* `search_iff`: it finds exactly the nodes that can be reached
-/

universe u

namespace StackSearch

open ComponentSearch

variable {α : Type u} [DecidableEq α] {succ : α → List α} {target : α} {seen : OrderedSet α}
  {paths : List α} {a b : α} {fuel : ℕ}

structure State (α : Type u) where
  seen : OrderedSet α
  /-- The stack, its top first. -/
  paths : List α

/-- The search starts with one node to look at. -/
def start (a : α) : State α := ⟨.empty, [a]⟩

/-- What is pushed after a node was looked at: its successors that are not seen yet. -/
def unseen (succ : α → List α) (seen : OrderedSet α) (a : α) : OrderedSet α :=
  (OrderedSet.ofList (succ a)).diff seen

@[simp] theorem mem_unseen : b ∈ unseen succ seen a ↔ b ∈ succ a ∧ b ∉ seen := by
  simp [unseen]

/-- Look at the node on top, mark it, push its successors. -/
def next (succ : α → List α) (seen : OrderedSet α) (a : α) (paths : List α) : State α :=
  ⟨seen.insert a, (unseen succ (seen.insert a) a).elements.reverse ++ paths⟩

/-- Whether `target` is found. Nothing after `fuel` steps. -/
def search (succ : α → List α) (target : α) : ℕ → State α → Option Bool
  | 0, _ => none
  | _ + 1, ⟨_, []⟩ => some false
  | fuel + 1, ⟨seen, a :: paths⟩ =>
    if a = target then some true else search succ target fuel (next succ seen a paths)

theorem mem_next_paths :
    b ∈ (next succ seen a paths).paths ↔
      (b ∈ succ a ∧ b ≠ a ∧ b ∉ seen) ∨ b ∈ paths := by
  simp only [next, List.mem_append, List.mem_reverse]
  rw [← OrderedSet.mem_def, mem_unseen, OrderedSet.mem_insert, not_or]

/-! ## The search ends -/

section Termination

variable {nodes : Finset α}

def fresh (nodes : Finset α) (seen : OrderedSet α) : Finset α := nodes.filter (· ∉ seen)

/-- A step on a node that is seen may push as many nodes as one on a new node. But then the new top
is a node that is not seen, so that only every other step can be like this. -/
def potential (nodes : Finset α) (s : State α) : ℕ :=
  s.paths.length + 2 * nodes.card * (fresh nodes s.seen).card +
    if ∃ a ∈ s.paths.head?, a ∈ s.seen then nodes.card else 0

theorem fresh_insert_of_mem (h : a ∈ seen) : fresh nodes (seen.insert a) = fresh nodes seen := by
  ext b
  simp only [fresh, Finset.mem_filter, OrderedSet.mem_insert, not_or]
  exact and_congr_right fun _ => ⟨And.right, fun hb => ⟨fun he => hb (he ▸ h), hb⟩⟩

theorem card_fresh_insert (hn : a ∈ nodes) (h : a ∉ seen) :
    (fresh nodes (seen.insert a)).card + 1 = (fresh nodes seen).card := by
  have he : fresh nodes (seen.insert a) = (fresh nodes seen).erase a := by
    ext b
    simp only [fresh, Finset.mem_filter, OrderedSet.mem_insert, not_or, Finset.mem_erase]
    exact and_left_comm
  rw [he]
  exact Finset.card_erase_add_one (Finset.mem_filter.mpr ⟨hn, h⟩)

/-- Only nodes that are not seen are pushed. -/
theorem head_next (h : (unseen succ (seen.insert a) a).elements ≠ [])
    (hb : b ∈ (next succ seen a paths).paths.head?) : b ∉ (next succ seen a paths).seen := by
  rw [next, List.head?_append_of_ne_nil _ (by simpa using h)] at hb
  exact (mem_unseen.mp (List.mem_reverse.mp (List.mem_of_mem_head? hb))).2

theorem potential_next_lt (hs : ∀ a, ∀ b ∈ succ a, b ∈ nodes) (ha : a ∈ nodes) :
    potential nodes (next succ seen a paths) < potential nodes ⟨seen, a :: paths⟩ := by
  have hpush : (unseen succ (seen.insert a) a).elements.length ≤ nodes.card :=
    OrderedSet.size_le_card fun b hb => hs a b (mem_unseen.mp hb).1
  have hlen : (next succ seen a paths).paths.length =
      (unseen succ (seen.insert a) a).elements.length + paths.length := by
    simp [next]
  have hseen : (next succ seen a paths).seen = seen.insert a := rfl
  simp only [potential, hlen, hseen, List.length_cons, List.head?_cons, Option.mem_def,
    Option.some.injEq, exists_eq_left']
  by_cases h : a ∈ seen
  · -- nothing is new: either nothing is pushed, or the next top is not seen
    rw [fresh_insert_of_mem h, if_pos h]
    by_cases hp : (unseen succ (seen.insert a) a).elements = []
    · rw [hp]
      split_ifs <;> simp only [List.length_nil] <;> omega
    · rw [if_neg fun ⟨b, hb, hmem⟩ => head_next hp hb hmem]
      omega
  · rw [← card_fresh_insert ha h, if_neg h, Nat.mul_add]
    split_ifs <;> omega

/-- **The search ends** within the potential of its state. -/
theorem search_isSome (nodes : Finset α) (hs : ∀ a, ∀ b ∈ succ a, b ∈ nodes) {s : State α}
    (hp : ∀ a ∈ s.paths, a ∈ nodes) (hf : potential nodes s < fuel) :
    (search succ target fuel s).isSome := by
  induction fuel generalizing s with
  | zero => exact absurd hf (Nat.not_lt_zero _)
  | succ fuel ih =>
    obtain ⟨seen, paths⟩ := s
    cases paths with
    | nil => rfl
    | cons a paths =>
      rw [search]
      split_ifs
      · rfl
      · refine ih (fun b hb => ?_) ?_
        · rcases mem_next_paths.mp hb with ⟨hb, -⟩ | hb
          · exact hs a b hb
          · exact hp b (List.mem_cons_of_mem a hb)
        · exact (potential_next_lt hs (hp a List.mem_cons_self)).trans_le (Nat.le_of_lt_succ hf)

theorem potential_start_le (nodes : Finset α) (a : α) :
    potential nodes (start a) ≤ 2 * nodes.card * nodes.card + 1 := by
  have hc : (fresh nodes OrderedSet.empty).card ≤ nodes.card :=
    Finset.card_le_card (Finset.filter_subset _ _)
  have := Nat.mul_le_mul_left (2 * nodes.card) hc
  simp only [potential, start, List.length_singleton, List.head?_cons, Option.mem_def,
    Option.some.injEq, exists_eq_left', OrderedSet.not_mem_empty, if_false]
  omega

end Termination

/-! ## What the search finds -/

/-- What is on the stack can be reached, and the successors of what is seen are seen or on it. -/
structure Inv (succ : α → List α) (target a : α) (s : State α) : Prop where
  reach : ∀ b ∈ s.paths, Reach succ a b
  start_mem : a ∈ s.seen ∨ a ∈ s.paths
  closed : ∀ b ∈ s.seen, ∀ c ∈ succ b, c ∈ s.seen ∨ c ∈ s.paths
  target_not_mem : target ∉ s.seen

omit [DecidableEq α] in
theorem Inv.start (a : α) : Inv succ target a (start a) where
  reach b hb := by
    obtain rfl := List.mem_singleton.mp hb
    exact Reach.refl b
  start_mem := .inr List.mem_cons_self
  closed _ hb := absurd hb OrderedSet.not_mem_empty
  target_not_mem := OrderedSet.not_mem_empty

theorem Inv.next (h : Inv succ target a ⟨seen, b :: paths⟩) (hb : b ≠ target) :
    Inv succ target a (next succ seen b paths) := by
  have keep : ∀ c, c ∈ seen ∨ c ∈ b :: paths →
      c ∈ seen.insert b ∨ c ∈ (StackSearch.next succ seen b paths).paths := by
    rintro c (hc | hc)
    · exact .inl (OrderedSet.mem_insert.mpr (.inr hc))
    · rcases List.mem_cons.mp hc with rfl | hc
      · exact .inl (OrderedSet.mem_insert.mpr (.inl rfl))
      · exact .inr (mem_next_paths.mpr (.inr hc))
  refine ⟨fun c hc => ?_, keep a h.start_mem, fun c hc d hd => ?_, fun hin => ?_⟩
  · rcases mem_next_paths.mp hc with ⟨hc, -⟩ | hc
    · exact (h.reach b List.mem_cons_self).trans (Reach.edge hc)
    · exact h.reach c (List.mem_cons_of_mem b hc)
  · rcases OrderedSet.mem_insert.mp hc with rfl | hc
    · by_cases hin : d ∈ seen.insert c
      · exact .inl hin
      · rw [OrderedSet.mem_insert, not_or] at hin
        exact .inr (mem_next_paths.mpr (.inl ⟨hd, hin⟩))
    · exact keep d (h.closed c hc d hd)
  · rcases OrderedSet.mem_insert.mp hin with rfl | hin
    · exact hb rfl
    · exact h.target_not_mem hin

theorem Inv.search_iff {s : State α} (h : Inv succ target a s) {found : Bool}
    (hr : search succ target fuel s = some found) : found = true ↔ Reach succ a target := by
  induction fuel generalizing s with
  | zero => cases hr
  | succ fuel ih =>
    obtain ⟨seen, paths⟩ := s
    cases paths with
    | nil =>
      cases hr
      refine ⟨fun hf => Bool.noConfusion hf, fun hreach => ?_⟩
      -- everything that can be reached is seen, and the target is not
      have hall : ∀ b, Reach succ a b → b ∈ seen := by
        intro b hb
        induction hb with
        | refl => exact h.start_mem.resolve_right List.not_mem_nil
        | tail _ hc ih => exact (h.closed _ ih _ hc).resolve_right List.not_mem_nil
      exact absurd (hall target hreach) h.target_not_mem
    | cons b paths =>
      rw [search] at hr
      split_ifs at hr with hb
      · cases hr
        exact ⟨fun _ => hb ▸ h.reach b List.mem_cons_self, fun _ => rfl⟩
      · exact ih (h.next hb) hr

/-- **The search finds** exactly what can be reached. -/
theorem search_iff {found : Bool} (h : search succ target fuel (start a) = some found) :
    found = true ↔ Reach succ a target :=
  (Inv.start a).search_iff h

end StackSearch
