import Mathlib.Logic.Relation
import Mathlib.Data.List.Basic
import Mathlib.Logic.Function.Basic
import Mathlib.Order.Nat
import Mathlib.Order.MinMax
import N8n.Foundations.Remaining

/-!
# Depth-first search for strongly connected components

Tarjan's search numbers the nodes in the order it enters them, keeps the entered nodes on a stack
and gives each a low value. When it leaves a node whose low value is its own number, the node and
everything above it on the stack are emitted as one component.

The search is stated as a relation between the states before and after a task, since programs
differ in how they store the state and in the value a node takes over from an already numbered
child: its number or its low value. Every search the relation allows is correct.

## Main definitions

* `Reach`, `Mutual`: reachability along successors, in one direction and in both
* `State`: numbers, low values, stack and emitted components
* `Run succ s task t`: the search turns `s` into `t` by entering a node or following its successors
* `Inv succ gray s`: the search invariant, `gray` being the nodes entered and not yet left

## Main results

* `Run.spec`: a search keeps the invariant
* `Inv.mem_emitted_iff`, `Inv.mutual_iff`: with no node open, the emitted components are the
  classes of mutual reachability of the entered nodes
-/

namespace ComponentSearch

universe u

variable {α : Type u}

/-! ## Reachability -/

/-- `b` is reachable from `a` along successors. -/
def Reach (succ : α → List α) : α → α → Prop := Relation.ReflTransGen fun a b => b ∈ succ a

/-- `a` and `b` are reachable from each other. -/
def Mutual (succ : α → List α) (a b : α) : Prop := Reach succ a b ∧ Reach succ b a

variable {succ : α → List α} {x : α}

theorem Reach.refl (a : α) : Reach succ a a := Relation.ReflTransGen.refl

theorem Reach.trans {a b c : α} (h : Reach succ a b) (k : Reach succ b c) : Reach succ a c :=
  Relation.ReflTransGen.trans h k

theorem Reach.edge {a b : α} (h : b ∈ succ a) : Reach succ a b := Relation.ReflTransGen.single h

theorem Mutual.refl (a : α) : Mutual succ a a := ⟨Reach.refl a, Reach.refl a⟩

theorem Mutual.symm {a b : α} (h : Mutual succ a b) : Mutual succ b a := ⟨h.2, h.1⟩

theorem Mutual.trans {a b c : α} (h : Mutual succ a b) (k : Mutual succ b c) : Mutual succ a c :=
  ⟨h.1.trans k.1, k.2.trans h.2⟩

/-- A path that starts in `p` and ends outside it leaves `p` along some edge. -/
theorem Reach.exists_leaving {p : α → Prop} {a b : α} (h : Reach succ a b) (ha : p a)
    (hb : ¬ p b) : ∃ x y, p x ∧ ¬ p y ∧ y ∈ succ x ∧ Reach succ a x ∧ Reach succ y b := by
  induction h using Relation.ReflTransGen.head_induction_on with
  | refl => exact absurd ha hb
  | @head x y hxy hyb ih =>
    by_cases hy : p y
    · obtain ⟨u, w, hu, hw, huw, hyu, hwb⟩ := ih hy
      exact ⟨u, w, hu, hw, huw, (Reach.edge hxy).trans hyu, hwb⟩
    · exact ⟨x, y, ha, hy, hxy, Reach.refl x, hyb⟩

/-! ## The search -/

/-- The state of a component search. -/
structure State (α : Type u) where
  /-- The number of a node, once it is entered. -/
  index : α → Option ℕ
  /-- The low value of a node, meaningful once it is entered. -/
  low : α → ℕ
  /-- The next number to give out. -/
  next : ℕ
  /-- The entered nodes not emitted yet, newest first. -/
  stack : List α
  /-- The emitted components, newest first. -/
  emitted : List (List α)

namespace State

/-- The state before any node is entered. -/
def empty : State α := ⟨fun _ => none, fun _ => 0, 0, [], []⟩

/-- The node has been entered. -/
def Visited (s : State α) (x : α) : Prop := s.index x ≠ none

/-- The number of an entered node. -/
def num (s : State α) (x : α) : ℕ := (s.index x).getD 0

section Updates

variable [DecidableEq α]

/-- Number `v` and put it on the stack. -/
def enter (s : State α) (v : α) : State α :=
  { s with
    index := Function.update s.index v (some s.next)
    low := Function.update s.low v s.next
    next := s.next + 1
    stack := v :: s.stack }

/-- Lower the low value of `v` to `k` if that is smaller. -/
def lower (s : State α) (v : α) (k : ℕ) : State α :=
  { s with low := Function.update s.low v (min (s.low v) k) }

section State

variable (s : State α)
include s

@[simp] theorem lower_index (v : α) (k : ℕ) : (s.lower v k).index = s.index := rfl
@[simp] theorem lower_next (v : α) (k : ℕ) : (s.lower v k).next = s.next := rfl
@[simp] theorem lower_stack (v : α) (k : ℕ) : (s.lower v k).stack = s.stack := rfl
@[simp] theorem lower_emitted (v : α) (k : ℕ) : (s.lower v k).emitted = s.emitted := rfl
@[simp] theorem lower_num (v : α) (k : ℕ) (x : α) : (s.lower v k).num x = s.num x := rfl
@[simp] theorem lower_visited (v : α) (k : ℕ) (x : α) :
    (s.lower v k).Visited x ↔ s.Visited x := Iff.rfl
@[simp] theorem lower_low_self (v : α) (k : ℕ) :
    (s.lower v k).low v = min (s.low v) k := by simp [lower]

theorem lower_low_of_ne {v x : α} (k : ℕ) (h : x ≠ v) :
    (s.lower v k).low x = s.low x := by simp [lower, h]

@[simp] theorem enter_next (v : α) : (s.enter v).next = s.next + 1 := rfl
@[simp] theorem enter_stack (v : α) : (s.enter v).stack = v :: s.stack := rfl
@[simp] theorem enter_emitted (v : α) : (s.enter v).emitted = s.emitted := rfl
@[simp] theorem enter_index_self (v : α) : (s.enter v).index v = some s.next := by
  simp [enter]
@[simp] theorem enter_num_self (v : α) : (s.enter v).num v = s.next := by
  simp [enter, num]
@[simp] theorem enter_low_self (v : α) : (s.enter v).low v = s.next := by
  simp [enter]

theorem enter_num_of_ne {v x : α} (h : x ≠ v) : (s.enter v).num x = s.num x := by
  simp [enter, num, h]

theorem enter_low_of_ne {v x : α} (h : x ≠ v) : (s.enter v).low x = s.low x := by
  simp [enter, h]

theorem enter_visited (v x : α) : (s.enter v).Visited x ↔ x = v ∨ s.Visited x := by
  by_cases h : x = v
  · simp [Visited, enter, h]
  · simp [Visited, enter, h]

end State

end Updates

end State

/-- What the search does next: enter a node, or follow the remaining successors of one. -/
inductive Task (α : Type u)
  | visit (v : α)
  | follow (v : α) (children : List α)

section Search

variable [DecidableEq α]

/-- `Run succ s task t`: the search turns `s` into `t` by carrying out `task`. -/
inductive Run (succ : α → List α) : State α → Task α → State α → Prop
  /-- Every successor of `v` is followed. -/
  | done (s : State α) (v : α) : Run succ s (.follow v []) s
  /-- A child not entered yet is searched first, then `v` takes over its low value. -/
  | tree {s t u : State α} {v c : α} {cs : List α} : s.index c = none →
      Run succ s (.visit c) t → Run succ (t.lower v (t.low c)) (.follow v cs) u →
      Run succ s (.follow v (c :: cs)) u
  /-- As `tree`, where the child's component is already emitted and its low value is left alone. -/
  | treeEmitted {s t u : State α} {v c : α} {cs : List α} : s.index c = none →
      Run succ s (.visit c) t → c ∉ t.stack → Run succ t (.follow v cs) u →
      Run succ s (.follow v (c :: cs)) u
  /-- A child on the stack hands over its number or its low value. -/
  | seen {s u : State α} {v c : α} {cs : List α} {i k : ℕ} : s.index c = some i → c ∈ s.stack →
      k = i ∨ k = s.low c → Run succ (s.lower v k) (.follow v cs) u →
      Run succ s (.follow v (c :: cs)) u
  /-- A child whose component is already emitted is passed over. -/
  | past {s u : State α} {v c : α} {cs : List α} {i : ℕ} : s.index c = some i → c ∉ s.stack →
      Run succ s (.follow v cs) u → Run succ s (.follow v (c :: cs)) u
  /-- A node that is left with a low value below its number stays on the stack. -/
  | keep {s t : State α} {v : α} : Run succ (s.enter v) (.follow v (succ v)) t →
      t.low v ≠ s.next → Run succ s (.visit v) t
  /-- A node left with its own number as its low value is emitted with all above it. -/
  | emit {s t : State α} {v : α} {above : List α} :
      Run succ (s.enter v) (.follow v (succ v)) t → t.low v = s.next →
      t.stack = above ++ v :: s.stack →
      Run succ s (.visit v) { t with
        stack := s.stack
        emitted := (above ++ [v]) :: t.emitted }

end Search

/-! ## The invariant -/

/-- The search invariant, where `gray` are the nodes entered and not yet left. -/
structure Inv (succ : α → List α) (gray : α → Prop) (s : State α) : Prop where
  num_lt : ∀ x, s.Visited x → s.num x < s.next
  num_inj : ∀ x y, s.Visited x → s.Visited y → s.num x = s.num y → x = y
  stack_visited : ∀ x ∈ s.stack, s.Visited x
  stack_sorted : s.stack.Pairwise fun x y => s.num y < s.num x
  gray_stack : ∀ x, gray x → x ∈ s.stack
  /-- The successors of a node that is left are entered. -/
  closed : ∀ x, s.Visited x → ¬ gray x → ∀ y ∈ succ x, s.Visited y
  /-- The stack is a path upwards. -/
  up : ∀ x ∈ s.stack, ∀ y ∈ s.stack, s.num x ≤ s.num y → Reach succ x y
  /-- Every node of the stack gets back to an open node at or below it. -/
  down : ∀ x ∈ s.stack, ∃ g, gray g ∧ s.num g ≤ s.num x ∧ Reach succ x g
  low_le : ∀ x ∈ s.stack, s.low x ≤ s.num x
  low_stack : ∀ x ∈ s.stack, ∃ y ∈ s.stack, s.num y = s.low x ∧ Reach succ x y
  emitted_iff : ∀ x, (∃ c ∈ s.emitted, x ∈ c) ↔ s.Visited x ∧ x ∉ s.stack
  emitted_class : ∀ c ∈ s.emitted, ∀ x ∈ c, ∀ y, y ∈ c ↔ Mutual succ x y
  emitted_nodup : ∀ c ∈ s.emitted, c.Nodup
  emitted_disjoint : s.emitted.Pairwise List.Disjoint

/-- What never changes between two states of a search: numbers are kept, the stack grows on top
by newly entered nodes, and components are only added. -/
structure Grow (s t : State α) : Prop where
  index : ∀ x i, s.index x = some i → t.index x = some i
  next : s.next ≤ t.next
  stack : ∃ new, t.stack = new ++ s.stack ∧ ∀ x ∈ new, s.index x = none
  emitted : ∃ new, t.emitted = new ++ s.emitted

theorem Grow.refl (s : State α) : Grow s s :=
  ⟨fun _ _ h => h, le_rfl, ⟨[], by simp⟩, ⟨[], by simp⟩⟩

theorem Grow.visited {s t : State α} (h : Grow s t) (hx : s.Visited x) : t.Visited x := by
  obtain ⟨i, hi⟩ := Option.ne_none_iff_exists'.mp hx
  simp [State.Visited, h.index x i hi]

theorem Grow.num {s t : State α} (h : Grow s t) (hx : s.Visited x) : t.num x = s.num x := by
  obtain ⟨i, hi⟩ := Option.ne_none_iff_exists'.mp hx
  simp [State.num, hi, h.index x i hi]

theorem Grow.mem_stack {s t : State α} (h : Grow s t) (hx : x ∈ s.stack) : x ∈ t.stack := by
  obtain ⟨new, he, -⟩ := h.stack
  exact he ▸ List.mem_append_right _ hx

/-- A node of the later stack is an old one or is entered in between. -/
theorem Grow.mem_stack_iff {s t : State α} (h : Grow s t) (hx : x ∈ t.stack) (hs : s.Visited x) :
    x ∈ s.stack := by
  obtain ⟨new, he, hn⟩ := h.stack
  rw [he] at hx
  exact (List.mem_append.mp hx).resolve_left fun hx => hs (hn x hx)

theorem Grow.trans {s t u : State α} (h : Grow s t) (k : Grow t u) : Grow s u := by
  refine ⟨fun x i hi => k.index x i (h.index x i hi), h.next.trans k.next, ?_, ?_⟩
  · obtain ⟨new, he, hn⟩ := h.stack
    obtain ⟨new', he', hn'⟩ := k.stack
    refine ⟨new' ++ new, by rw [he', he, List.append_assoc], fun x hx => ?_⟩
    rcases List.mem_append.mp hx with hx | hx
    · by_contra hv
      exact h.visited hv (hn' x hx)
    · exact hn x hx
  · obtain ⟨new, he⟩ := h.emitted
    obtain ⟨new', he'⟩ := k.emitted
    exact ⟨new' ++ new, by rw [he', he, List.append_assoc]⟩

def Pre (succ : α → List α) (gray : α → Prop) (s : State α) : Task α → Prop
  | .visit v => s.index v = none ∧ ∀ g, gray g → Reach succ g v
  | .follow v cs => gray v ∧ (∀ g, gray g → s.num g ≤ s.num v) ∧ ∀ c ∈ cs, c ∈ succ v

/-- What a task adds to the invariant. An edge from the new part of the stack into the old one
bounds the low value the task leaves behind. -/
def Post (succ : α → List α) (s t : State α) : Task α → Prop
  | .visit v => t.index v = some s.next ∧ (∀ x, s.Visited x → t.low x = s.low x) ∧
      (v ∉ t.stack → t.low v = s.next ∧ t.stack = s.stack) ∧
      ∀ x ∈ t.stack, s.index x = none → ∀ y ∈ s.stack, y ∈ succ x → t.low v ≤ s.num y
  | .follow v cs => (∀ x, s.Visited x → x ≠ v → t.low x = s.low x) ∧ t.low v ≤ s.low v ∧
      (∀ c ∈ cs, t.Visited c) ∧
      (∀ x ∈ t.stack, s.index x = none → ∀ y ∈ s.stack, y ∈ succ x → t.low v ≤ s.num y) ∧
      ∀ c ∈ cs, c ∈ s.stack → t.low v ≤ s.num c

variable {gray : α → Prop} {s t u : State α} {v c : α}

theorem Inv.stack_nodup (h : Inv succ gray s) : s.stack.Nodup :=
  h.stack_sorted.imp fun hlt heq => absurd hlt (by simp [heq])

variable [DecidableEq α]

theorem Grow.lower (s : State α) (v : α) (k : ℕ) : Grow s (s.lower v k) :=
  ⟨fun _ _ h => h, le_rfl, ⟨[], by simp⟩, ⟨[], by simp⟩⟩

theorem Grow.enter (hv : s.index v = none) : Grow s (s.enter v) := by
  refine ⟨fun x i hi => ?_, Nat.le_succ _, ⟨[v], by simp [hv]⟩, ⟨[], by simp⟩⟩
  have hne : x ≠ v := by rintro rfl; simp [hv] at hi
  simp [State.enter, hne, hi]

theorem Inv.enter (h : Inv succ gray s) (hv : s.index v = none)
    (hg : ∀ g, gray g → Reach succ g v) : Inv succ (fun x => gray x ∨ x = v) (s.enter v) := by
  have hne : ∀ x, s.Visited x → x ≠ v := by rintro x hx rfl; exact hx hv
  have hst : ∀ x ∈ s.stack, x ≠ v := fun x hx => hne x (h.stack_visited x hx)
  constructor
  · intro x hx
    rcases (s.enter_visited v x).mp hx with rfl | hx
    · simp
    · rw [s.enter_num_of_ne (hne x hx)]
      exact (h.num_lt x hx).trans (Nat.lt_succ_self _)
  · intro x y hx hy he
    rcases (s.enter_visited v x).mp hx with hxv | hx <;>
      rcases (s.enter_visited v y).mp hy with hyv | hy
    · rw [hxv, hyv]
    · rw [hxv, s.enter_num_self, s.enter_num_of_ne (hne y hy)] at he
      exact absurd (h.num_lt y hy) (by omega)
    · rw [hyv, s.enter_num_self, s.enter_num_of_ne (hne x hx)] at he
      exact absurd (h.num_lt x hx) (by omega)
    · rw [s.enter_num_of_ne (hne x hx), s.enter_num_of_ne (hne y hy)] at he
      exact h.num_inj x y hx hy he
  · intro x hx
    rcases List.mem_cons.mp hx with rfl | hx
    · exact (s.enter_visited x x).mpr (.inl rfl)
    · exact (s.enter_visited v x).mpr (.inr (h.stack_visited x hx))
  · refine List.pairwise_cons.mpr ⟨fun y hy => ?_, ?_⟩
    · rw [s.enter_num_self, s.enter_num_of_ne (hst y hy)]
      exact h.num_lt y (h.stack_visited y hy)
    · refine h.stack_sorted.imp_of_mem fun {x y} hx hy hlt => ?_
      rwa [s.enter_num_of_ne (hst x hx), s.enter_num_of_ne (hst y hy)]
  · rintro x (hx | rfl)
    · exact List.mem_cons_of_mem _ (h.gray_stack x hx)
    · exact List.mem_cons_self
  · intro x hx hgx y hy
    have hxv : x ≠ v := fun he => hgx (.inr he)
    have hx' := ((s.enter_visited v x).mp hx).resolve_left hxv
    exact (s.enter_visited v y).mpr (.inr (h.closed x hx' (fun hg => hgx (.inl hg)) y hy))
  · intro x hx y hy hle
    rcases List.mem_cons.mp hx with hxv | hx <;> rcases List.mem_cons.mp hy with hyv | hy
    · exact hxv ▸ hyv ▸ Reach.refl _
    · rw [hxv, s.enter_num_self, s.enter_num_of_ne (hst y hy)] at hle
      exact absurd (h.num_lt y (h.stack_visited y hy)) (by omega)
    · obtain ⟨g, hgg, -, hxg⟩ := h.down x hx
      exact hyv ▸ hxg.trans (hg g hgg)
    · rw [s.enter_num_of_ne (hst x hx), s.enter_num_of_ne (hst y hy)] at hle
      exact h.up x hx y hy hle
  · intro x hx
    rcases List.mem_cons.mp hx with rfl | hx
    · exact ⟨x, .inr rfl, le_rfl, Reach.refl x⟩
    · obtain ⟨g, hgg, hle, hxg⟩ := h.down x hx
      refine ⟨g, .inl hgg, ?_, hxg⟩
      rwa [s.enter_num_of_ne (hst x hx), s.enter_num_of_ne (hst g (h.gray_stack g hgg))]
  · intro x hx
    rcases List.mem_cons.mp hx with rfl | hx
    · simp
    · rw [s.enter_num_of_ne (hst x hx), s.enter_low_of_ne (hst x hx)]
      exact h.low_le x hx
  · intro x hx
    rcases List.mem_cons.mp hx with rfl | hx
    · exact ⟨x, List.mem_cons_self, by simp, Reach.refl x⟩
    · obtain ⟨y, hy, he, hxy⟩ := h.low_stack x hx
      refine ⟨y, List.mem_cons_of_mem _ hy, ?_, hxy⟩
      rwa [s.enter_num_of_ne (hst y hy), s.enter_low_of_ne (hst x hx)]
  · intro x
    rw [s.enter_emitted, h.emitted_iff x, s.enter_visited, s.enter_stack, List.mem_cons]
    by_cases hxv : x = v
    · subst hxv
      simp [State.Visited, hv]
    · simp [hxv]
  · exact h.emitted_class
  · exact h.emitted_nodup
  · exact h.emitted_disjoint

theorem Inv.lower (h : Inv succ gray s) {k : ℕ}
    (hk : s.low v ≤ k ∨ ∃ y ∈ s.stack, s.num y = k ∧ Reach succ v y) :
    Inv succ gray (s.lower v k) := by
  refine ⟨h.num_lt, h.num_inj, h.stack_visited, h.stack_sorted, h.gray_stack, h.closed, h.up,
    h.down, ?_, ?_, h.emitted_iff, h.emitted_class, h.emitted_nodup, h.emitted_disjoint⟩
  · intro x hx
    by_cases hxv : x = v
    · subst hxv
      rw [s.lower_low_self]
      exact (min_le_left _ _).trans (h.low_le x hx)
    · rw [s.lower_low_of_ne k hxv]
      exact h.low_le x hx
  · intro x hx
    by_cases hxv : x = v
    · subst hxv
      rw [s.lower_low_self]
      rcases hk with hk | ⟨y, hy, he, hxy⟩
      · rw [min_eq_left hk]
        exact h.low_stack x hx
      · rcases min_choice (s.low x) k with hm | hm
        · rw [hm]
          exact h.low_stack x hx
        · rw [hm]
          exact ⟨y, hy, he, hxy⟩
    · rw [s.lower_low_of_ne k hxv]
      exact h.low_stack x hx

theorem Pre.enter (hs : Inv succ gray s) (hv : s.index v = none) :
    Pre succ (fun x => gray x ∨ x = v) (s.enter v) (.follow v (succ v)) := by
  refine ⟨.inr rfl, ?_, fun c hc => hc⟩
  rintro g (hg | rfl)
  · have hgv := hs.stack_visited g (hs.gray_stack g hg)
    have hne : g ≠ v := by rintro rfl; exact hgv hv
    rw [s.enter_num_of_ne hne, s.enter_num_self]
    exact (hs.num_lt g hgv).le
  · exact le_rfl

omit [DecidableEq α] in
/-- The rest of the successors may be followed after the first one. -/
theorem Pre.rest {cs : List α} (hs : Inv succ gray s) (hg : Grow s t)
    (h : Pre succ gray s (.follow v (c :: cs))) : Pre succ gray t (.follow v cs) := by
  obtain ⟨hv, htop, hcs⟩ := h
  refine ⟨hv, fun g hg' => ?_, fun d hd => hcs d (List.mem_cons_of_mem _ hd)⟩
  rw [hg.num (hs.stack_visited g (hs.gray_stack g hg')),
    hg.num (hs.stack_visited v (hs.gray_stack v hv))]
  exact htop g hg'

/-! ## One successor after another -/

omit [DecidableEq α] in
theorem Post.cons {cs : List α} (hs : Inv succ gray s) (hg : Grow s t) (hg' : Grow t u)
    (h : Post succ s t (.follow v [c])) (h' : Post succ t u (.follow v cs)) :
    Post succ s u (.follow v (c :: cs)) := by
  obtain ⟨hlow, hle, hch, hedge, hold⟩ := h
  obtain ⟨hlow', hle', hch', hedge', hold'⟩ := h'
  refine ⟨fun x hx hxv => ?_, hle'.trans hle, fun d hd => ?_, fun x hx hxs y hy hxy => ?_,
    fun d hd hds => ?_⟩
  · rw [hlow' x (hg.visited hx) hxv, hlow x hx hxv]
  · rcases List.mem_cons.mp hd with rfl | hd
    · exact hg'.visited (hch _ List.mem_cons_self)
    · exact hch' d hd
  · by_cases hxt : t.index x = none
    · rw [← hg.num (hs.stack_visited y hy)]
      exact hedge' x hx hxt y (hg.mem_stack hy) hxy
    · exact hle'.trans (hedge x (hg'.mem_stack_iff hx hxt) hxs y hy hxy)
  · rcases List.mem_cons.mp hd with rfl | hd
    · exact hle'.trans (hold _ List.mem_cons_self hds)
    · rw [← hg.num (hs.stack_visited d hds)]
      exact hold' d hd (hg.mem_stack hds)

omit [DecidableEq α] in
/-- A child whose component is emitted asks for nothing. -/
theorem Post.of_past {i : ℕ} (hs : Inv succ gray s) (hi : s.index c = some i)
    (hc : c ∉ s.stack) : Post succ s s (.follow v [c]) := by
  refine ⟨fun _ _ _ => rfl, le_rfl, fun d hd => ?_, fun x hx hxs _ _ _ => ?_, fun d hd hds => ?_⟩
  · obtain rfl := List.mem_singleton.mp hd
    simp [State.Visited, hi]
  · exact absurd hxs (hs.stack_visited x hx)
  · obtain rfl := List.mem_singleton.mp hd
    exact absurd hds hc

/-- A child on the stack hands over a value that is at most its number. -/
theorem Post.of_seen {k : ℕ} (hs : Inv succ gray s) (hc : c ∈ s.stack) (hk : k ≤ s.num c) :
    Post succ s (s.lower v k) (.follow v [c]) := by
  refine ⟨fun x _ hxv => s.lower_low_of_ne k hxv, ?_, fun d hd => ?_,
    fun x hx hxs _ _ _ => ?_, fun d hd _ => ?_⟩
  · rw [s.lower_low_self]
    exact min_le_left _ _
  · obtain rfl := List.mem_singleton.mp hd
    exact hs.stack_visited d hc
  · exact absurd hxs (hs.stack_visited x hx)
  · obtain rfl := List.mem_singleton.mp hd
    rw [s.lower_low_self]
    exact (min_le_right _ _).trans hk

omit [DecidableEq α] in
/-- A child searched just now and emitted leaves nothing behind. -/
theorem Post.of_treeEmitted (hv : s.Visited v) (hs : Inv succ gray s) (hci : s.index c = none)
    (hc : c ∉ t.stack) (h : Post succ s t (.visit c)) : Post succ s t (.follow v [c]) := by
  obtain ⟨hi, hlow, hout, -⟩ := h
  refine ⟨fun x hx _ => hlow x hx, (hlow v hv).le, fun d hd => ?_, fun x hx hxs _ _ _ => ?_,
    fun d hd hds => ?_⟩
  · obtain rfl := List.mem_singleton.mp hd
    simp [State.Visited, hi]
  · rw [(hout hc).2] at hx
    exact absurd hxs (hs.stack_visited x hx)
  · obtain rfl := List.mem_singleton.mp hd
    exact absurd hci (hs.stack_visited d hds)

/-- A child searched just now hands over its low value, which bounds the edges from its part of
the stack. -/
theorem Post.of_tree (hv : s.Visited v) (hs : Inv succ gray s) (hci : s.index c = none)
    (h : Post succ s t (.visit c)) : Post succ s (t.lower v (t.low c)) (.follow v [c]) := by
  obtain ⟨hi, hlow, -, hedge⟩ := h
  refine ⟨fun x hx hxv => ?_, ?_, fun d hd => ?_, fun x hx hxs y hy hxy => ?_, fun d hd hds => ?_⟩
  · rw [t.lower_low_of_ne _ hxv, hlow x hx]
  · rw [t.lower_low_self, hlow v hv]
    exact min_le_left _ _
  · obtain rfl := List.mem_singleton.mp hd
    simp [State.Visited, hi]
  · rw [t.lower_low_self]
    exact (min_le_right _ _).trans (hedge x hx hxs y hy hxy)
  · obtain rfl := List.mem_singleton.mp hd
    exact absurd hci (hs.stack_visited d hds)

/-! ## Leaving a node -/

/-- What holds when every successor of `v` is followed and `v` is about to be left. -/
structure Leaving (succ : α → List α) (gray : α → Prop) (s t : State α) (v : α) : Prop where
  inv : Inv succ (fun x => gray x ∨ x = v) t
  grow : Grow (s.enter v) t
  fresh : s.index v = none
  not_gray : ¬ gray v
  reach : ∀ g, gray g → Reach succ g v
  gray_old : ∀ g, gray g → g ∈ s.stack
  low : ∀ x, s.Visited x → t.low x = s.low x
  children : ∀ c ∈ succ v, t.Visited c
  /-- An edge from `v` or the part above it into the old stack bounds the low value of `v`. -/
  edge : ∀ x ∈ t.stack, s.index x = none → ∀ y ∈ s.stack, y ∈ succ x → t.low v ≤ s.num y

theorem Leaving.of_follow (hs : Inv succ gray s) (hf : s.index v = none)
    (hr : ∀ g, gray g → Reach succ g v) (hi : Inv succ (fun x => gray x ∨ x = v) t)
    (hg : Grow (s.enter v) t) (hp : Post succ (s.enter v) t (.follow v (succ v))) :
    Leaving succ gray s t v := by
  obtain ⟨hlow, -, hch, hedge, hold⟩ := hp
  have hne : ∀ x, s.Visited x → x ≠ v := by rintro x hx rfl; exact hx hf
  refine ⟨hi, hg, hf, fun h => hne v (hs.stack_visited v (hs.gray_stack v h)) rfl, hr,
    hs.gray_stack, fun x hx => ?_, hch, fun x hx hxs y hy hxy => ?_⟩
  · rw [hlow x ((s.enter_visited v x).mpr (.inr hx)) (hne x hx), s.enter_low_of_ne (hne x hx)]
  · have hyv := hne y (hs.stack_visited y hy)
    rw [← s.enter_num_of_ne hyv]
    by_cases hxv : x = v
    · subst hxv
      exact hold y hxy (List.mem_cons_of_mem _ hy)
    · refine hedge x hx ?_ y (List.mem_cons_of_mem _ hy) hxy
      simp [State.enter, hxv, hxs]

namespace Leaving

theorem num_self (h : Leaving succ gray s t v) : t.num v = s.next := by
  rw [h.grow.num ((s.enter_visited v v).mpr (.inl rfl)), s.enter_num_self]

theorem mem_stack (h : Leaving succ gray s t v) : v ∈ t.stack :=
  h.grow.mem_stack List.mem_cons_self

theorem num_old (h : Leaving succ gray s t v) (hx : s.Visited x) : t.num x = s.num x := by
  have hne : x ≠ v := by rintro rfl; exact hx h.fresh
  rw [h.grow.num ((s.enter_visited v x).mpr (.inr hx)), s.enter_num_of_ne hne]

/-- The stack when `v` is left: nodes entered since above `v`, the old stack below it. -/
theorem exists_stack (h : Leaving succ gray s t v) :
    ∃ above, t.stack = above ++ v :: s.stack ∧ ∀ x ∈ above, s.index x = none ∧ x ≠ v := by
  obtain ⟨above, he, hn⟩ := h.grow.stack
  refine ⟨above, he, fun x hx => ?_⟩
  have hx' := hn x hx
  by_cases hxv : x = v
  · subst hxv
    simp at hx'
  · exact ⟨by simpa [State.enter, hxv] using hx', hxv⟩

/-- The part of the stack from `v` up is what was entered since `v`. -/
theorem num_le_iff (hs : Inv succ gray s) (h : Leaving succ gray s t v) (hx : x ∈ t.stack) :
    t.num v ≤ t.num x ↔ x ∉ s.stack := by
  obtain ⟨above, he, hn⟩ := h.exists_stack
  constructor
  · intro hle hxs
    have := hs.num_lt x (hs.stack_visited x hxs)
    rw [h.num_self, h.num_old (hs.stack_visited x hxs)] at hle
    omega
  · intro hxs
    have hsort := h.inv.stack_sorted
    rw [he] at hx hsort
    rcases List.mem_append.mp hx with hx | hx
    · exact (List.pairwise_append.mp hsort).2.2 x hx v List.mem_cons_self |>.le
    · rcases List.mem_cons.mp hx with rfl | hx
      · exact le_rfl
      · exact absurd hx hxs

/-- The nodes from `v` up are reachable from `v`. -/
theorem reach_above (h : Leaving succ gray s t v) (hx : x ∈ t.stack) (hle : t.num v ≤ t.num x) :
    Reach succ v x :=
  h.inv.up v h.mem_stack x hx hle

/-- The nodes from `v` up reach `v`. -/
theorem above_reach (h : Leaving succ gray s t v) (hx : x ∈ t.stack) : Reach succ x v := by
  obtain ⟨g, hg | rfl, -, hxg⟩ := h.inv.down x hx
  · exact hxg.trans (h.reach g hg)
  · exact hxg

/-- A node left with a smaller low value gets back to a node below it, hence to an open one. -/
theorem keep_inv (hs : Inv succ gray s) (h : Leaving succ gray s t v) (hk : t.low v ≠ s.next) :
    Inv succ gray t := by
  have hi := h.inv
  have hlt : t.low v < t.num v :=
    lt_of_le_of_ne (hi.low_le v h.mem_stack) (by rw [h.num_self]; exact hk)
  -- `v` itself gets back to an open node below it
  have hv : ∃ g, gray g ∧ t.num g ≤ t.num v ∧ Reach succ v g := by
    obtain ⟨y, hy, he, hvy⟩ := hi.low_stack v h.mem_stack
    have hys : y ∈ s.stack := by
      by_contra hys
      exact absurd ((h.num_le_iff hs hy).mpr hys) (by omega)
    obtain ⟨g, hg, hle, hyg⟩ := hs.down y hys
    refine ⟨g, hg, ?_, hvy.trans hyg⟩
    rw [h.num_old (hs.stack_visited g (h.gray_old g hg))]
    rw [h.num_old (hs.stack_visited y hys)] at he
    omega
  refine { hi with gray_stack := fun x hx => hi.gray_stack x (.inl hx), closed := ?_, down := ?_ }
  · intro x hx hg
    by_cases hxv : x = v
    · subst hxv
      exact h.children
    · exact hi.closed x hx fun hgx => hgx.elim hg hxv
  · intro x hx
    obtain ⟨g, hg | rfl, hle, hxg⟩ := hi.down x hx
    · exact ⟨g, hg, hle, hxg⟩
    · obtain ⟨g', hg', hle', hvg⟩ := hv
      exact ⟨g', hg', hle'.trans hle, hxg.trans hvg⟩

/-- **The emitted class**: a node left with its own number as its low value is mutually reachable
with exactly the nodes above it on the stack. -/
theorem mutual_iff (hs : Inv succ gray s) (h : Leaving succ gray s t v) (hk : t.low v = s.next) :
    x ∈ t.stack ∧ x ∉ s.stack ↔ Mutual succ v x := by
  have hi := h.inv
  constructor
  · rintro ⟨hx, hxs⟩
    exact ⟨h.reach_above hx ((h.num_le_iff hs hx).mpr hxs), h.above_reach hx⟩
  · rintro ⟨hvx, hxv⟩
    by_contra hx
    -- a path from `v` to `x` leaves the part of the stack above `v` along an edge `a → b`
    obtain ⟨a, b, ⟨ha, has⟩, hb, hab, -, hbx⟩ :=
      hvx.exists_leaving (p := fun x => x ∈ t.stack ∧ x ∉ s.stack)
        ⟨h.mem_stack, fun hv => hs.stack_visited v hv h.fresh⟩ hx
    have haf : s.index a = none := by
      by_contra haf
      obtain ⟨above, he, hn⟩ := h.exists_stack
      rw [he] at ha
      rcases List.mem_append.mp ha with ha | ha
      · exact haf (hn a ha).1
      · rcases List.mem_cons.mp ha with rfl | ha
        · exact haf h.fresh
        · exact has ha
    have hbv : t.Visited b := by
      by_cases hav : a = v
      · subst hav
        exact h.children b hab
      · refine hi.closed a (hi.stack_visited a ha) (fun hg => ?_) b hab
        exact hg.elim (fun hg => has (h.gray_old a hg)) hav
    by_cases hbt : b ∈ t.stack
    · -- into the old stack, which would have lowered `v`
      have hbs : b ∈ s.stack := by
        by_contra hbs
        exact hb ⟨hbt, hbs⟩
      have := h.edge a ha haf b hbs hab
      have := hs.num_lt b (hs.stack_visited b hbs)
      omega
    · -- into an emitted class, which would then contain `v`
      obtain ⟨c, hc, hbc⟩ := (hi.emitted_iff b).mpr ⟨hbv, hbt⟩
      have hvb : Reach succ v b :=
        (h.reach_above ha ((h.num_le_iff hs ha).mpr has)).trans (Reach.edge hab)
      have hvc : v ∈ c := (hi.emitted_class c hc b hbc v).mpr ⟨hbx.trans hxv, hvb⟩
      exact ((hi.emitted_iff v).mp ⟨c, hc, hvc⟩).2 h.mem_stack

/-- The part of the stack from `v` up, as the emitted list names it. -/
theorem mem_above_iff (h : Leaving succ gray s t v) {above : List α}
    (he : t.stack = above ++ v :: s.stack) :
    x ∈ above ++ [v] ↔ x ∈ t.stack ∧ x ∉ s.stack := by
  have hnd := h.inv.stack_nodup
  rw [he] at hnd ⊢
  have hdis := (List.nodup_append.mp hnd).2.2
  have hvs := (List.nodup_cons.mp (List.nodup_append.mp hnd).2.1).1
  constructor
  · intro hx
    rcases List.mem_append.mp hx with hx | hx
    · exact ⟨List.mem_append_left _ hx, fun hs => hdis x hx x (List.mem_cons_of_mem _ hs) rfl⟩
    · obtain rfl := List.mem_singleton.mp hx
      exact ⟨by simp, hvs⟩
  · rintro ⟨hx, hxs⟩
    simp only [List.mem_append, List.mem_cons, List.not_mem_nil, or_false] at hx ⊢
    tauto

theorem emit_inv (hs : Inv succ gray s) (h : Leaving succ gray s t v) (hk : t.low v = s.next)
    {above : List α} (he : t.stack = above ++ v :: s.stack) :
    Inv succ gray { t with stack := s.stack, emitted := (above ++ [v]) :: t.emitted } := by
  have hi := h.inv
  have hsub : ∀ x ∈ s.stack, x ∈ t.stack := fun x hx => h.grow.mem_stack (List.mem_cons_of_mem _ hx)
  have hnum : ∀ x ∈ s.stack, t.num x = s.num x := fun x hx => h.num_old (hs.stack_visited x hx)
  refine ⟨hi.num_lt, hi.num_inj, fun x hx => hi.stack_visited x (hsub x hx), ?_, h.gray_old, ?_,
    fun x hx y hy => hi.up x (hsub x hx) y (hsub y hy), ?_, fun x hx => hi.low_le x (hsub x hx),
    ?_, ?_, ?_, ?_, ?_⟩
  · have := hi.stack_sorted
    rw [he] at this
    exact (List.pairwise_append.mp this).2.1.of_cons
  · intro x hx hg
    by_cases hxv : x = v
    · subst hxv
      exact h.children
    · exact hi.closed x hx fun hgx => hgx.elim hg hxv
  · intro x hx
    obtain ⟨g, hg, hle, hxg⟩ := hs.down x hx
    refine ⟨g, hg, ?_, hxg⟩
    change t.num g ≤ t.num x
    rwa [hnum x hx, hnum g (h.gray_old g hg)]
  · intro x hx
    obtain ⟨y, hy, hyx, hxy⟩ := hs.low_stack x hx
    refine ⟨y, hy, ?_, hxy⟩
    change t.num y = t.low x
    rwa [hnum y hy, h.low x (hs.stack_visited x hx)]
  · intro x
    simp only [List.mem_cons, exists_eq_or_imp, h.mem_above_iff he, hi.emitted_iff x]
    constructor
    · rintro (⟨hx, hxs⟩ | ⟨hx, hxs⟩)
      · exact ⟨hi.stack_visited x hx, hxs⟩
      · exact ⟨hx, fun h' => hxs (hsub x h')⟩
    · rintro ⟨hx, hxs⟩
      by_cases hxt : x ∈ t.stack
      · exact .inl ⟨hxt, hxs⟩
      · exact .inr ⟨hx, hxt⟩
  · intro c hc x hx y
    rcases List.mem_cons.mp hc with rfl | hc
    · have hvx := (h.mutual_iff hs hk).mp ((h.mem_above_iff he).mp hx)
      rw [h.mem_above_iff he, h.mutual_iff hs hk]
      exact ⟨fun hy => hvx.symm.trans hy, fun hy => hvx.trans hy⟩
    · exact hi.emitted_class c hc x hx y
  · intro c hc
    rcases List.mem_cons.mp hc with rfl | hc
    · refine hi.stack_nodup.sublist ?_
      rw [he, List.append_cons above v s.stack]
      exact List.sublist_append_left _ _
    · exact hi.emitted_nodup c hc
  · refine List.pairwise_cons.mpr ⟨fun c hc x hx hxc => ?_, hi.emitted_disjoint⟩
    exact ((hi.emitted_iff x).mp ⟨c, hc, hxc⟩).2 ((h.mem_above_iff he).mp hx).1

end Leaving

/-! ## The search is correct -/

/-- **The search rule**: a task keeps the invariant and does what it promises. -/
theorem Run.spec {task : Task α} (h : Run succ s task t) {gray : α → Prop}
    (hs : Inv succ gray s) (hp : Pre succ gray s task) :
    Inv succ gray t ∧ Grow s t ∧ Post succ s t task := by
  induction h generalizing gray with
  | done s v =>
    refine ⟨hs, Grow.refl s, fun _ _ _ => rfl, le_rfl, by simp, fun x hx hxs _ _ _ => ?_, by simp⟩
    exact absurd hxs (hs.stack_visited x hx)
  | @tree s t u v c cs hci _ _ ih ih' =>
    obtain ⟨hv, htop, hcs⟩ := hp
    have hvs := hs.gray_stack v hv
    have hvc : c ∈ succ v := hcs c List.mem_cons_self
    obtain ⟨hit, hgt, hpt⟩ := ih hs ⟨hci, fun g hg =>
      (hs.up g (hs.gray_stack g hg) v hvs (htop g hg)).trans (Reach.edge hvc)⟩
    have hvv := hs.stack_visited v hvs
    have hil : Inv succ gray (t.lower v (t.low c)) := by
      refine hit.lower ?_
      by_cases hct : c ∈ t.stack
      · obtain ⟨y, hy, he, hcy⟩ := hit.low_stack c hct
        exact .inr ⟨y, hy, he, (Reach.edge hvc).trans hcy⟩
      · refine .inl ?_
        rw [(hpt.2.2.1 hct).1, hpt.2.1 v hvv]
        exact (hs.low_le v hvs).trans (hs.num_lt v hvv).le
    have hgl := hgt.trans (Grow.lower t v (t.low c))
    obtain ⟨hiu, hgu, hpu⟩ := ih' hil (Pre.rest hs hgl ⟨hv, htop, hcs⟩)
    exact ⟨hiu, hgl.trans hgu, Post.cons hs hgl hgu (Post.of_tree hvv hs hci hpt) hpu⟩
  | @treeEmitted s t u v c cs hci _ hct _ ih ih' =>
    obtain ⟨hv, htop, hcs⟩ := hp
    have hvs := hs.gray_stack v hv
    have hvv := hs.stack_visited v hvs
    obtain ⟨hit, hgt, hpt⟩ := ih hs ⟨hci, fun g hg =>
      (hs.up g (hs.gray_stack g hg) v hvs (htop g hg)).trans
        (Reach.edge (hcs c List.mem_cons_self))⟩
    obtain ⟨hiu, hgu, hpu⟩ := ih' hit (Pre.rest hs hgt ⟨hv, htop, hcs⟩)
    exact ⟨hiu, hgt.trans hgu, Post.cons hs hgt hgu (Post.of_treeEmitted hvv hs hci hct hpt) hpu⟩
  | @seen s u v c cs i k hi hc hk _ ih =>
    obtain ⟨hv, htop, hcs⟩ := hp
    have hvc : Reach succ v c := Reach.edge (hcs c List.mem_cons_self)
    have hnum : s.num c = i := by simp [State.num, hi]
    have hil : Inv succ gray (s.lower v k) := by
      refine hs.lower (.inr ?_)
      rcases hk with rfl | rfl
      · exact ⟨c, hc, hnum, hvc⟩
      · obtain ⟨y, hy, he, hcy⟩ := hs.low_stack c hc
        exact ⟨y, hy, he, hvc.trans hcy⟩
    have hle : k ≤ s.num c := by
      rcases hk with rfl | rfl
      · exact hnum.ge
      · exact hs.low_le c hc
    have hgl := Grow.lower s v k
    obtain ⟨hiu, hgu, hpu⟩ := ih hil (Pre.rest hs hgl ⟨hv, htop, hcs⟩)
    exact ⟨hiu, hgl.trans hgu, Post.cons hs hgl hgu (Post.of_seen hs hc hle) hpu⟩
  | @past s u v c cs i hi hc _ ih =>
    obtain ⟨hv, htop, hcs⟩ := hp
    obtain ⟨hiu, hgu, hpu⟩ := ih hs (Pre.rest hs (Grow.refl s) ⟨hv, htop, hcs⟩)
    exact ⟨hiu, hgu, Post.cons hs (Grow.refl s) hgu (Post.of_past hs hi hc) hpu⟩
  | @keep s t v _ hk ih =>
    obtain ⟨hf, hr⟩ := hp
    obtain ⟨hit, hgt, hpt⟩ := ih (hs.enter hf hr) (Pre.enter hs hf)
    have hl := Leaving.of_follow hs hf hr hit hgt hpt
    refine ⟨hl.keep_inv hs hk, (Grow.enter hf).trans hgt, ?_, hl.low, fun hv => ?_, hl.edge⟩
    · exact hgt.index v s.next (s.enter_index_self v)
    · exact absurd hl.mem_stack hv
  | @emit s t v above _ hk he ih =>
    obtain ⟨hf, hr⟩ := hp
    obtain ⟨hit, hgt, hpt⟩ := ih (hs.enter hf hr) (Pre.enter hs hf)
    have hl := Leaving.of_follow hs hf hr hit hgt hpt
    refine ⟨hl.emit_inv hs hk he, ⟨fun x i hi => ?_, ?_, ⟨[], by simp⟩, ?_⟩, ?_, hl.low,
      fun _ => ⟨hk, rfl⟩, fun x hx hxs => absurd hxs (hs.stack_visited x hx)⟩
    · exact hgt.index x i ((Grow.enter hf).index x i hi)
    · exact ((Grow.enter hf).trans hgt).next
    · obtain ⟨new, hn⟩ := ((Grow.enter hf).trans hgt).emitted
      exact ⟨(above ++ [v]) :: new, by simp [hn]⟩
    · exact hgt.index v s.next (s.enter_index_self v)

/-! ## How much is left to enter -/

section Room

variable {s t : State α} {nodes : Finset α} {v : α}

/-- How many of the nodes are not entered yet. -/
def room (nodes : Finset α) (s : State α) : ℕ := (nodes.filter fun x => s.index x = none).card

omit [DecidableEq α] in
theorem room_le_of_grow (h : Grow s t) : room nodes t ≤ room nodes s := by
  apply Remaining.card_le_of_seen
  intro x hx
  by_contra hne
  exact h.visited hne hx

theorem room_enter_lt (hv : v ∈ nodes) (h : s.index v = none) :
    room nodes (s.enter v) < room nodes s := by
  apply Remaining.card_lt_of_seen _ hv h
  · simp
  · intro x hx
    by_contra hne
    exact (Grow.enter h).visited hne hx

end Room

/-! ## The whole search -/

omit [DecidableEq α] in
theorem Inv.empty : Inv succ (fun _ => False) (State.empty : State α) := by
  constructor <;> simp [State.empty, State.Visited]

/-- The search entered at each root not entered yet, in order. -/
inductive RunAll (succ : α → List α) : State α → List α → State α → Prop
  | nil (s : State α) : RunAll succ s [] s
  | enter {s t u : State α} {r : α} {rs : List α} : s.index r = none →
      Run succ s (.visit r) t → RunAll succ t rs u → RunAll succ s (r :: rs) u
  | skip {s u : State α} {r : α} {rs : List α} : s.index r ≠ none →
      RunAll succ s rs u → RunAll succ s (r :: rs) u

theorem RunAll.spec {roots : List α} (h : RunAll succ s roots t)
    (hs : Inv succ (fun _ => False) s) :
    Inv succ (fun _ => False) t ∧ Grow s t ∧ ∀ r ∈ roots, t.Visited r := by
  induction h with
  | nil s => exact ⟨hs, Grow.refl s, by simp⟩
  | enter hr hv _ ih =>
    obtain ⟨hit, hgt, hpt⟩ := hv.spec hs ⟨hr, fun _ h => h.elim⟩
    obtain ⟨hiu, hgu, hvu⟩ := ih hit
    refine ⟨hiu, hgt.trans hgu, List.forall_mem_cons.mpr ⟨hgu.visited ?_, hvu⟩⟩
    simp [State.Visited, hpt.1]
  | skip hr _ ih =>
    obtain ⟨hiu, hgu, hvu⟩ := ih hs
    exact ⟨hiu, hgu, List.forall_mem_cons.mpr ⟨hgu.visited hr, hvu⟩⟩

omit [DecidableEq α] in
/-- With no node open the stack is empty. -/
theorem Inv.stack_eq_nil (h : Inv succ (fun _ => False) s) : s.stack = [] := by
  refine List.eq_nil_iff_forall_not_mem.mpr fun x hx => ?_
  obtain ⟨g, hg, -⟩ := h.down x hx
  exact hg

omit [DecidableEq α] in
/-- With no node open exactly the entered nodes are emitted. -/
theorem Inv.mem_emitted_iff (h : Inv succ (fun _ => False) s) (x : α) :
    (∃ c ∈ s.emitted, x ∈ c) ↔ s.Visited x := by
  rw [h.emitted_iff x, h.stack_eq_nil]
  simp

omit [DecidableEq α] in
/-- **The components**: two entered nodes are in one emitted component exactly if they are
mutually reachable. -/
theorem Inv.mutual_iff (h : Inv succ (fun _ => False) s) {x y : α} (hx : s.Visited x) :
    (∃ c ∈ s.emitted, x ∈ c ∧ y ∈ c) ↔ Mutual succ x y := by
  constructor
  · rintro ⟨c, hc, hxc, hyc⟩
    exact (h.emitted_class c hc x hxc y).mp hyc
  · intro hxy
    obtain ⟨c, hc, hxc⟩ := (h.mem_emitted_iff x).mpr hx
    exact ⟨c, hc, hxc, (h.emitted_class c hc x hxc y).mpr hxy⟩

end ComponentSearch
