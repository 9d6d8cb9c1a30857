import Mathlib.Order.Nat
import N8n.Foundations.Transition

/-!
# Endless executions

A run is finite. An execution goes on for ever, and may rest at any time. What comes about in the
end is a property of executions in which no step that is due is put off for ever.

## Main definitions

* `System.Execution`: a sequence of states, each after a step or a rest
* `System.Eventually`: a property that holds now or later

## Main results

* `System.Execution.invariant`: what one step keeps holds throughout
* `System.Execution.stays`: what one step keeps does not cease to hold
* `System.Eventually.of_rank`: a rank that sinks until a property holds
* `System.execution_of_follow`: a run whose system then rests is an execution
-/

namespace Transition

namespace System

universe u v

variable {σ : Type u} {ε : Type v} {S : System σ ε} {run : ℕ → σ} {next : σ → ε → Option σ}

/-- The states of a system that takes one step after the other, or rests. -/
structure Execution (S : System σ ε) (run : ℕ → σ) : Prop where
  init : S.init (run 0)
  step : ∀ n, run (n + 1) = run n ∨ ∃ e, S.step (run n) e (run (n + 1))

/-- A property holds at `n` or later. -/
def Eventually (run : ℕ → σ) (n : ℕ) (P : σ → Prop) : Prop :=
  ∃ m, n ≤ m ∧ P (run m)

section Invariants

variable {I : σ → Prop}

theorem Execution.invariant (h : S.Execution run) (base : ∀ {s}, S.init s → I s)
    (keep : ∀ {s e t}, I s → S.step s e t → I t) (n : ℕ) : I (run n) := by
  induction n with
  | zero => exact base h.init
  | succ n ih =>
    rcases h.step n with hrest | ⟨e, hs⟩
    · exact hrest ▸ ih
    · exact keep ih hs

theorem Execution.stays (h : S.Execution run) (keep : ∀ {s e t}, I s → S.step s e t → I t)
    {n m : ℕ} (hnm : n ≤ m) (hn : I (run n)) : I (run m) := by
  induction m, hnm using Nat.le_induction with
  | base => exact hn
  | succ m _ ih =>
    rcases h.step m with hrest | ⟨e, hs⟩
    · exact hrest ▸ ih
    · exact keep ih hs

end Invariants

/-! ## Executions that come to rest -/

/-- The labels of a list, one after the other, and then a rest for ever. -/
def settling (next : σ → ε → Option σ) (es : List ε) (s : σ) (n : ℕ) : σ :=
  (follow next (es.take n) s).getD s

theorem execution_of_follow {es : List ε} {s t : σ}
    (hS : ∀ {s e t}, next s e = some t → S.step s e t) (hinit : S.init s)
    (h : follow next es s = some t) : S.Execution (settling next es s) := by
  refine ⟨hinit, fun n => ?_⟩
  rcases Nat.lt_or_ge n es.length with hn | hn
  · -- the labels up to the one of this step
    have hsplit : es = es.take n ++ ([es[n]] ++ es.drop (n + 1)) := by simp
    rw [hsplit, follow_append] at h
    obtain ⟨u, hu, h⟩ := Option.bind_eq_some_iff.mp h
    obtain ⟨v, hv, -⟩ := Option.bind_eq_some_iff.mp h
    refine .inr ⟨es[n], hS ?_⟩
    rw [settling, settling, List.take_succ_eq_append_getElem hn, follow_append, hu]
    show next u es[n] = some ((follow next [es[n]] u).getD s)
    rw [follow, hv]
    rfl
  · exact .inl (by rw [settling, settling, List.take_of_length_le hn,
      List.take_of_length_le (le_trans hn (Nat.le_succ n))])

/-- From its last label on the system rests. -/
theorem settling_min {es : List ε} {s : σ} (n : ℕ) :
    settling next es s n = settling next es s (min n es.length) := by
  rw [settling, settling]
  rcases Nat.le_total n es.length with hn | hn
  · rw [Nat.min_eq_left hn]
  · rw [Nat.min_eq_right hn, List.take_of_length_le hn, List.take_length]

/-! ## What comes about in the end -/

section Eventually

variable {P Q : σ → Prop} {n : ℕ}

theorem Eventually.now (h : P (run n)) : Eventually run n P := ⟨n, le_refl n, h⟩

theorem Eventually.trans (h : Eventually run n P)
    (next : ∀ m, n ≤ m → P (run m) → Eventually run m Q) : Eventually run n Q := by
  obtain ⟨m, hnm, hm⟩ := h
  obtain ⟨k, hmk, hk⟩ := next m hnm hm
  exact ⟨k, le_trans hnm hmk, hk⟩

/-- **The rank rule**: a property comes about if a rank sinks, sooner or later, as long as it does
not hold. -/
theorem Eventually.of_rank {I : σ → Prop} (rank : σ → ℕ) (hn : I (run n))
    (sinks : ∀ m, n ≤ m → I (run m) →
      P (run m) ∨ Eventually run m fun s => I s ∧ rank s < rank (run m)) :
    Eventually run n P := by
  induction hrank : rank (run n) using Nat.strong_induction_on generalizing n with
  | _ r ih =>
    rcases sinks n (le_refl n) hn with hp | hlater
    · exact .now hp
    · refine hlater.trans fun m hnm ⟨hm, hlt⟩ => ?_
      exact ih _ (hrank ▸ hlt) hm (fun k hmk => sinks k (le_trans hnm hmk)) rfl

end Eventually

end System

end Transition
