import Mathlib.Logic.Relation

/-!
# Labelled transition systems

A system has initial states and labelled steps. A run carries the labels of its steps in order,
so that a property of what a system announces (which message it sent, which handler it started)
is a property of the labels of a run.

## Main definitions

* `System`: initial states and labelled steps
* `System.Run s es t`: a run from `s` to `t` with the labels `es`
* `System.Reachable s`: some run leads from an initial state to `s`
* `System.Later s t`: some run leads from `s` to `t`
* `System.restrict`: the steps that meet a condition

## Main results

* `System.Run.history_invariant`: a property of the labels so far and the state, kept by one
  step, holds along every run
* `System.Reachable.invariant`: a property of the state, kept by one step, holds in every
  reachable state
* `System.Later.preserved`: a reflexive and transitive relation kept by one step relates the two
  ends of every run
* `System.Run.restrict_congr`: two conditions that agree on the steps from an invariant are met by
  the same runs
-/

namespace Transition

universe u v

/-- A labelled transition system on states `σ` with labels `ε`. -/
structure System (σ : Type u) (ε : Type v) where
  /-- The states a run may start in. -/
  init : σ → Prop
  /-- `step s e t`: the system moves from `s` to `t` announcing `e`. -/
  step : σ → ε → σ → Prop

namespace System

variable {σ : Type u} {ε : Type v} {S : System σ ε} {es : List ε} {s t u : σ}
  {next : σ → ε → Option σ} {I : σ → Prop} {e : ε}

/-- The runs of a system, with the labels of their steps in order. -/
inductive Run (S : System σ ε) (s : σ) : List ε → σ → Prop
  | nil : Run S s [] s
  | snoc {es : List ε} {t u : σ} {e : ε} : Run S s es t → S.step t e u → Run S s (es ++ [e]) u

/-- Some run leads from an initial state to `s`. -/
def Reachable (S : System σ ε) (s : σ) : Prop :=
  ∃ s₀ es, S.init s₀ ∧ S.Run s₀ es s

/-- Some run leads from `s` to `t`. -/
def Later (S : System σ ε) (s t : σ) : Prop :=
  ∃ es, S.Run s es t

theorem Later.refl (s : σ) : S.Later s s := ⟨[], Run.nil⟩

theorem Run.append {es fs : List ε} (h : S.Run s es t) (k : S.Run t fs u) :
    S.Run s (es ++ fs) u := by
  induction k with
  | nil => simpa using h
  | snoc _ hs ih =>
    rw [← List.append_assoc]
    exact ih.snoc hs

theorem Later.trans (h : S.Later s t) (k : S.Later t u) : S.Later s u := by
  obtain ⟨es, h⟩ := h
  obtain ⟨fs, k⟩ := k
  exact ⟨es ++ fs, h.append k⟩

theorem Later.of_step (h : S.step s e t) : S.Later s t :=
  ⟨[e], Run.nil.snoc h⟩

theorem Reachable.of_init {s : σ} (h : S.init s) : S.Reachable s := ⟨s, [], h, Run.nil⟩

theorem Reachable.later (h : S.Reachable s) (k : S.Later s t) : S.Reachable t := by
  obtain ⟨s₀, es, h₀, h⟩ := h
  obtain ⟨fs, k⟩ := k
  exact ⟨s₀, es ++ fs, h₀, h.append k⟩

theorem Reachable.step (h : S.Reachable s) (k : S.step s e t) : S.Reachable t :=
  h.later (Later.of_step k)

/-- **The history rule**: a property of the labels announced so far and the current state that
one step keeps holds along every run. -/
theorem Run.history_invariant {I : List ε → σ → Prop} (h : S.Run s es t) (base : I [] s)
    (keep : ∀ {fs u e v}, I fs u → S.step u e v → I (fs ++ [e]) v) : I es t := by
  induction h with
  | nil => exact base
  | snoc _ hs ih => exact keep ih hs

/-- **The invariant rule**: a property of initial states that one step keeps holds in every
reachable state. -/
theorem Reachable.invariant {s : σ} (h : S.Reachable s) (base : ∀ {s}, S.init s → I s)
    (keep : ∀ {u e v}, I u → S.step u e v → I v) : I s := by
  obtain ⟨s₀, es, h₀, hr⟩ := h
  exact hr.history_invariant (I := fun _ => I) (base h₀) keep

/-- The invariant rule with an invariant already known: one step needs to keep `I` only from
reachable states. -/
theorem Reachable.invariant_of_reachable {s : σ} (h : S.Reachable s) (base : ∀ {s}, S.init s → I s)
    (keep : ∀ {u e v}, S.Reachable u → I u → S.step u e v → I v) : I s := by
  refine (h.invariant (I := fun s => S.Reachable s ∧ I s) ?_ ?_).2
  · exact fun h₀ => ⟨Reachable.of_init h₀, base h₀⟩
  · exact fun hu hs => ⟨hu.1.step hs, keep hu.1 hu.2 hs⟩

/-- A reflexive and transitive relation that holds across one step from every reachable state
relates a reachable state to every later one. -/
theorem Later.preserved {R : σ → σ → Prop} (h : S.Later s t) (hs : S.Reachable s)
    (refl : ∀ s, R s s) (trans : ∀ {s t u}, R s t → R t u → R s u)
    (step : ∀ {u e v}, S.Reachable u → S.step u e v → R u v) : R s t := by
  obtain ⟨es, h⟩ := h
  induction h with
  | nil => exact refl s
  | snoc hr hs' ih => exact trans ih (step (hs.later ⟨_, hr⟩) hs')

theorem Run.cons (h : S.step s e t) (k : S.Run t es u) : S.Run s (e :: es) u :=
  (Run.nil.snoc h).append k

theorem Run.exists_last {s u : σ} (h : S.Run s (es ++ [e]) u) :
    ∃ t, S.Run s es t ∧ S.step t e u := by
  generalize hes : es ++ [e] = fs at h
  cases h with
  | nil => simp at hes
  | @snoc es' t _ e' hrun hstep =>
    obtain ⟨rfl, rfl⟩ : es = es' ∧ e = e' := by simpa using hes
    exact ⟨t, hrun, hstep⟩

/-! ## Steps that a function computes -/

/-- Take the steps of a list of labels, one after the other. -/
def follow (next : σ → ε → Option σ) : List ε → σ → Option σ
  | [], s => some s
  | e :: es, s => (next s e).bind (follow next es)

theorem run_of_follow (hS : ∀ {s e t}, next s e = some t → S.step s e t)
    (h : follow next es s = some t) : S.Run s es t := by
  induction es generalizing s with
  | nil =>
    cases h
    exact .nil
  | cons e es ih =>
    obtain ⟨u, hu, ht⟩ := Option.bind_eq_some_iff.mp h
    exact Run.cons (hS hu) (ih ht)

theorem follow_append (es fs : List ε) (s : σ) :
    follow next (es ++ fs) s = (follow next es s).bind (follow next fs) := by
  induction es generalizing s with
  | nil => rfl
  | cons e es ih =>
    rw [List.cons_append, follow, follow, Option.bind_assoc]
    congr 1
    funext t
    exact ih t

/-- The labels of a run of a function determine where it ends. -/
theorem follow_of_run (hS : ∀ {s e t}, S.step s e t → next s e = some t) (h : S.Run s es t) :
    follow next es s = some t := by
  induction h with
  | nil => rfl
  | snoc _ hs ih =>
    rw [follow_append, ih]
    show (next _ _).bind (follow next []) = _
    rw [hS hs]
    rfl

/-! ## Runs whose steps all meet a condition -/

section Restrict

variable {P Q : σ → ε → σ → Prop}

/-- The steps of a system that meet a condition. -/
def restrict (S : System σ ε) (P : σ → ε → σ → Prop) : System σ ε where
  init := S.init
  step s e t := S.step s e t ∧ P s e t

theorem Run.of_restrict (h : (S.restrict P).Run s es t) : S.Run s es t := by
  induction h with
  | nil => exact .nil
  | snoc _ hs ih => exact ih.snoc hs.1

theorem Run.restrict_cons (h : S.step s e t) (hp : P s e t) (k : (S.restrict P).Run t es u) :
    (S.restrict P).Run s (e :: es) u :=
  Run.cons (S := S.restrict P) ⟨h, hp⟩ k

theorem Run.restrict_of_forall (h : S.Run s es t) (hp : ∀ e ∈ es, ∀ u v, P u e v) :
    (S.restrict P).Run s es t := by
  induction h with
  | nil => exact .nil
  | @snoc es t u e hrun hstep ih =>
    apply Run.snoc
    · exact ih fun e' he' => hp e' (List.mem_append_left _ he')
    · exact ⟨hstep, hp e (List.mem_append_right _ (List.mem_singleton_self e)) t u⟩

/-- One condition implies another along every run that starts in an invariant which the first
condition keeps. -/
theorem Run.restrict_mono (base : I s) (keep : ∀ {u e v}, I u → S.step u e v → P u e v → I v)
    (imp : ∀ {u e v}, I u → S.step u e v → P u e v → Q u e v) (h : (S.restrict P).Run s es t) :
    (S.restrict Q).Run s es t ∧ I t := by
  induction h with
  | nil => exact ⟨.nil, base⟩
  | snoc _ hs ih =>
    obtain ⟨hrun, hI⟩ := ih
    exact ⟨hrun.snoc ⟨hs.1, imp hI hs.1 hs.2⟩, keep hI hs.1 hs.2⟩

/-- Two conditions that agree on the steps from an invariant are met by the same runs. -/
theorem Run.restrict_congr (base : I s) (keep : ∀ {u e v}, I u → S.step u e v → P u e v → I v)
    (congr : ∀ {u e v}, I u → S.step u e v → (P u e v ↔ Q u e v)) :
    (S.restrict P).Run s es t ↔ (S.restrict Q).Run s es t := by
  constructor
  · intro h
    exact (h.restrict_mono base keep fun hu hs => (congr hu hs).mp).1
  · intro h
    refine (h.restrict_mono base ?_ fun hu hs => (congr hu hs).mpr).1
    intro u e v hu hs hq
    exact keep hu hs ((congr hu hs).mpr hq)

end Restrict

end System

end Transition
