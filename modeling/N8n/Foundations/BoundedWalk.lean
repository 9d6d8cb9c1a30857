import Mathlib.Data.List.Basic
import Mathlib.Data.List.Range
import Mathlib.Order.Lattice

/-!
# Bounded walks

A sequence of values is given by its first value and by how to advance from one value to the next,
which may end the sequence or fail. A walk takes values from the front as long as they are within a
bound, and at most a given number of them, and hands back where to go on. The next walk starts
there.

## Main definitions

* `nth`: the values of a sequence
* `Segment`: what a sequence starts with, and what comes after that
* `walk`: a walk along a sequence

## Main results

* `Segment.append`: a segment that starts where another one ends continues it
* `Segment.map_some`: a segment holds the first values of its sequence
* `Segment.pairwise_lt`: with an increasing `advance` the values of a segment increase
* `walk_ok`: what a walk returns
* `exists_walk_iff`: when a walk goes through
-/

namespace BoundedWalk

universe u v

variable {ε : Type u} {α : Type v} {advance : α → Except ε (Option α)} {a b bound : α}
  {taken taken' : List α} {rest : Option α}

/-! ## Sequences -/

/-- The value number `n` of the sequence that starts with a value: none once the sequence ended or
failed. -/
def nth (advance : α → Except ε (Option α)) (first : α) : ℕ → Option α
  | 0 => some first
  | n + 1 =>
    match advance first with
    | .ok (some second) => nth advance second n
    | _ => none

attribute [grind =] nth

/-- The sequence that starts with a value starts with the values taken, and goes on with `rest`. -/
inductive Segment (advance : α → Except ε (Option α)) : α → List α → Option α → Prop
  | nil (a : α) : Segment advance a [] (some a)
  | last {a : α} : advance a = .ok none → Segment advance a [a] none
  | cons {a b : α} {taken : List α} {rest : Option α} : advance a = .ok (some b) →
      Segment advance b taken rest → Segment advance a (a :: taken) rest

/-- Every value is before the next one. -/
def Increasing [Preorder α] (advance : α → Except ε (Option α)) : Prop :=
  ∀ a b, advance a = .ok (some b) → a < b

theorem nth_succ (h : advance a = .ok (some b)) (n : ℕ) : nth advance a (n + 1) = nth advance b n := by
  rw [nth, h]

theorem le_of_nth [Preorder α] (hadv : Increasing advance) {n : ℕ} (h : nth advance a n = some b) :
    a ≤ b := by
  induction n generalizing a with
  | zero => exact (Option.some.inj h).le
  | succ n ih =>
    rw [nth] at h
    split at h
    · rename_i c hc
      exact (hadv _ _ hc).le.trans (ih h)
    · cases h

namespace Segment

theorem append (h : Segment advance a taken (some b)) (k : Segment advance b taken' rest) :
    Segment advance a (taken ++ taken') rest := by
  generalize hr : some b = r at h
  induction h with
  | nil a => exact Option.some.inj hr ▸ k
  | last => cases hr
  | cons hab _ ih => exact .cons hab (ih hr)

/-- A segment that takes nothing stands where it started. -/
theorem rest_of_nil (h : Segment advance a [] rest) : rest = some a := by
  cases h
  rfl

theorem head_eq {c : α} (h : Segment advance a (c :: taken) rest) : c = a := by
  cases h <;> rfl

/-- **A segment** holds the first values of its sequence. -/
theorem map_some (h : Segment advance a taken rest) :
    taken.map some = (List.range taken.length).map (nth advance a) ∧
      nth advance a taken.length = rest := by
  induction h with
  | nil a => exact ⟨rfl, rfl⟩
  | last hab => exact ⟨rfl, by simp [nth, hab]⟩
  | @cons a b taken rest hab _ ih =>
    refine ⟨?_, by simp [nth, hab, ih.2]⟩
    rw [List.map_cons, ih.1, List.length_cons, List.range_succ_eq_map, List.map_cons, List.map_map]
    congr 1
    refine List.map_congr_left fun i _ => ?_
    simp [nth, hab]

theorem getElem?_eq (h : Segment advance a taken rest) {i : ℕ} (hi : i < taken.length) :
    taken[i]? = nth advance a i := by
  have := congrArg (fun l => l[i]?) h.map_some.1
  simp only [List.getElem?_map, List.getElem?_range hi, Option.map_some,
    List.getElem?_eq_getElem hi] at this
  rw [List.getElem?_eq_getElem hi]
  exact Option.some.inj this

section Increasing

variable [Preorder α]

theorem le_of_mem (hadv : Increasing advance) (h : Segment advance a taken rest) :
    ∀ c ∈ taken, a ≤ c := by
  induction h with
  | nil => simp
  | last => simp
  | cons hab _ ih =>
    exact List.forall_mem_cons.mpr ⟨le_rfl, fun c hc => (hadv _ _ hab).le.trans (ih c hc)⟩

theorem pairwise_lt (hadv : Increasing advance) (h : Segment advance a taken rest) :
    taken.Pairwise (· < ·) := by
  induction h with
  | nil => exact .nil
  | last => exact List.pairwise_singleton _ _
  | cons hab h ih =>
    exact .cons (fun c hc => (hadv _ _ hab).trans_le (h.le_of_mem hadv c hc)) ih

/-- The values of a segment are before the one where it ends. -/
theorem lt_rest (hadv : Increasing advance) (h : Segment advance a taken (some b)) :
    ∀ c ∈ taken, c < b := by
  generalize hr : some b = r at h
  induction h with
  | nil => simp
  | last => cases hr
  | @cons a c taken rest hac h ih =>
    refine List.forall_mem_cons.mpr ⟨?_, ih hr⟩
    cases h with
    | nil => exact Option.some.inj hr ▸ hadv _ _ hac
    | last => cases hr
    | cons => exact (hadv _ _ hac).trans (ih hr c List.mem_cons_self)

end Increasing

end Segment

/-! ## Walks -/

section Walk

variable [LinearOrder α] {limit : ℕ}

/-- Take at most `limit` values that are within the bound. Returns the values taken and the first
one not taken, if the sequence has one. -/
def walk (advance : α → Except ε (Option α)) (bound : α) : ℕ → α → Except ε (List α × Option α)
  | 0, a => .ok ([], some a)
  | limit + 1, a =>
    if a ≤ bound then
      match advance a with
      | .error e => .error e
      | .ok none => .ok ([a], none)
      | .ok (some b) => (walk advance bound limit b).map fun (taken, rest) => (a :: taken, rest)
    else .ok ([], some a)

attribute [grind =] walk

/-- A walk returns a segment of the sequence within the bound, and stops because of the limit, the
bound or the end of the sequence. -/
structure Walked (advance : α → Except ε (Option α)) (bound : α) (limit : ℕ) (a : α)
    (taken : List α) (rest : Option α) : Prop where
  segment : Segment advance a taken rest
  length_le : taken.length ≤ limit
  le_bound : ∀ c ∈ taken, c ≤ bound
  stop : taken.length = limit ∨ ∀ c, rest = some c → bound < c

/-- **What a walk returns.** -/
theorem walk_ok (h : walk advance bound limit a = .ok (taken, rest)) :
    Walked advance bound limit a taken rest := by
  induction limit generalizing a taken with
  | zero =>
    obtain ⟨rfl, rfl⟩ := Prod.mk.inj (Except.ok.inj h)
    exact ⟨.nil a, le_rfl, by simp, .inl rfl⟩
  | succ limit ih =>
    rw [walk] at h
    split_ifs at h with ha
    · cases hab : advance a with
      | error e => simp [hab] at h
      | ok next =>
        cases next with
        | none =>
          obtain ⟨rfl, rfl⟩ : [a] = taken ∧ none = rest := by simpa [hab] using h
          exact ⟨.last hab, by simp, by simpa using ha, .inr (by simp)⟩
        | some b =>
          rw [hab] at h
          cases hw : walk advance bound limit b with
          | error e => simp [hw, Except.map] at h
          | ok r =>
            obtain ⟨taken', rest'⟩ := r
            obtain ⟨rfl, rfl⟩ : a :: taken' = taken ∧ rest' = rest := by
              simpa [hw, Except.map] using h
            obtain ⟨hs, hl, hb, hstop⟩ := ih hw
            refine ⟨.cons hab hs, Nat.succ_le_succ hl, List.forall_mem_cons.mpr ⟨ha, hb⟩, ?_⟩
            exact hstop.imp (congrArg Nat.succ) id
    · obtain ⟨rfl, rfl⟩ := Prod.mk.inj (Except.ok.inj h)
      exact ⟨.nil a, Nat.zero_le _, by simp, .inr fun c hc => Option.some.inj hc ▸ not_le.mp ha⟩

/-- A walk that may take a value and starts within the bound takes its first value. -/
theorem Walked.exists_cons (h : Walked advance bound limit a taken rest) (hl : limit ≠ 0)
    (ha : a ≤ bound) : ∃ taken', taken = a :: taken' := by
  cases taken with
  | nil =>
    -- neither the limit nor the bound can have stopped it
    rcases h.stop with hs | hs
    · exact absurd hs.symm hl
    · exact absurd (hs a h.segment.rest_of_nil) (not_lt.mpr ha)
  | cons c taken => exact ⟨taken, h.segment.head_eq ▸ rfl⟩

/-- **A walk goes through** exactly when every value that it may take can be advanced from. -/
theorem exists_walk_iff (hadv : Increasing advance) :
    (∃ r, walk advance bound limit a = .ok r) ↔
      ∀ k < limit, ∀ b, nth advance a k = some b → b ≤ bound → ∃ next, advance b = .ok next := by
  induction limit generalizing a with
  | zero => exact ⟨fun _ k hk => absurd hk (Nat.not_lt_zero k), fun _ => ⟨_, rfl⟩⟩
  | succ limit ih =>
    rw [walk]
    split_ifs with ha
    · cases hab : advance a with
      | error e =>
        constructor
        · rintro ⟨r, hr⟩
          cases hr
        · intro h
          obtain ⟨next, hnext⟩ := h 0 (Nat.succ_pos limit) a rfl ha
          rw [hab] at hnext
          cases hnext
      | ok next =>
        cases next with
        | none =>
          refine ⟨fun _ k hk b hb _ => ?_, fun _ => ⟨_, rfl⟩⟩
          -- the sequence ends with its first value
          cases k with
          | zero => exact ⟨none, Option.some.inj hb ▸ hab⟩
          | succ k => simp [nth, hab] at hb
        | some c =>
          have hmap : (∃ r, (walk advance bound limit c).map
              (fun (taken, rest) => (a :: taken, rest)) = .ok r) ↔
                ∃ r, walk advance bound limit c = .ok r := by
            cases walk advance bound limit c <;> simp [Except.map]
          refine hmap.trans (ih.trans ⟨fun h k hk b hb hbound => ?_, fun h k hk b hb => ?_⟩)
          · cases k with
            | zero => exact ⟨some c, Option.some.inj hb ▸ hab⟩
            | succ k => exact h k (Nat.lt_of_succ_lt_succ hk) b (nth_succ hab k ▸ hb) hbound
          · exact h (k + 1) (Nat.succ_lt_succ hk) b (nth_succ hab k ▸ hb)
    · refine ⟨fun _ k _ b hb hbound => ?_, fun _ => ⟨_, rfl⟩⟩
      exact absurd ((le_of_nth hadv hb).trans hbound) ha

end Walk

end BoundedWalk
