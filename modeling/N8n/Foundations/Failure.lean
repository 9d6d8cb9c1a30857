import Mathlib.Data.List.Basic
import Mathlib.Data.List.Forall2

/-!
# Computations that may fail

What a computation that succeeded has done, step by step.

## Main results

* `bind_eq_ok`, `map_eq_ok`: the parts of a computation that succeeded
* `foldlM_invariant`: what every round of a loop keeps holds after a loop that succeeded
* `exists_foldlM`: a loop succeeds if every round does
* `mapM_eq_ok_iff`, `exists_mapM`, `exists_mapM_error`: a list is mapped unless one of its elements
  fails
-/

namespace Failure

universe u

variable {ε α β σ : Type u} {f : σ → α → Except ε σ} {xs : List α} {I : List α → σ → Prop}
  {l : List α}

theorem bind_eq_ok {x : Except ε α} {f : α → Except ε β} {b : β} :
    (x >>= f) = .ok b ↔ ∃ a, x = .ok a ∧ f a = .ok b := by
  cases x <;> simp [bind, Except.bind]

theorem map_eq_ok {x : Except ε α} {f : α → β} {b : β} :
    (f <$> x) = .ok b ↔ ∃ a, x = .ok a ∧ f a = b := by
  cases x <;> simp [Functor.map, Except.map]

/-- A property of the rounds so far and the state that one round keeps holds after the loop. -/
theorem foldlM_invariant {s t : σ} (h : xs.foldlM f s = .ok t) (base : I [] s)
    (keep : ∀ {done x u v}, x ∈ xs → I done u → f u x = .ok v → I (done ++ [x]) v) : I xs t := by
  suffices run : ∀ {done rest u}, (∀ x ∈ rest, x ∈ xs) → I done u →
      rest.foldlM f u = .ok t → I (done ++ rest) t by
    exact run (fun _ => id) base h
  intro done rest
  induction rest generalizing done with
  | nil =>
    intro u _ hu hrun
    cases hrun
    rwa [List.append_nil]
  | cons x rest ih =>
    intro u hmem hu hrun
    rw [List.foldlM_cons, bind_eq_ok] at hrun
    obtain ⟨v, hstep, hrun⟩ := hrun
    rw [← List.singleton_append, ← List.append_assoc]
    refine ih (fun y hy => hmem y (List.mem_cons_of_mem _ hy)) ?_ hrun
    exact keep (hmem x List.mem_cons_self) hu hstep

/-- A loop succeeds if every round does, whatever the rounds before have made of the state. -/
theorem exists_foldlM (h : ∀ x ∈ xs, ∀ s, ∃ t, f s x = .ok t) (s : σ) :
    ∃ t, xs.foldlM f s = .ok t := by
  induction xs generalizing s with
  | nil => exact ⟨s, rfl⟩
  | cons x xs ih =>
    obtain ⟨t, ht⟩ := h x List.mem_cons_self s
    rw [List.foldlM_cons, ht]
    exact ih (fun y hy => h y (List.mem_cons_of_mem _ hy)) t

/-- A loop succeeds if every round does from a state that the rounds before may lead to. -/
theorem exists_foldlM_of_keeps {s : σ} (base : I [] s)
    (keep : ∀ x ∈ xs, ∀ done u, I done u → ∃ v, f u x = .ok v ∧ I (done ++ [x]) v) :
    ∃ t, xs.foldlM f s = .ok t ∧ I xs t := by
  suffices run : ∀ {rest done u}, (∀ x ∈ rest, x ∈ xs) → I done u →
      ∃ t, rest.foldlM f u = .ok t ∧ I (done ++ rest) t by
    exact run (fun _ => id) base
  intro rest
  induction rest with
  | nil =>
    intro done u _ hu
    exact ⟨u, rfl, by rwa [List.append_nil]⟩
  | cons x rest ih =>
    intro done u hmem hu
    obtain ⟨v, hstep, hv⟩ := keep x (hmem x List.mem_cons_self) done u hu
    obtain ⟨t, hrun, ht⟩ := ih (fun y hy => hmem y (List.mem_cons_of_mem _ hy)) hv
    refine ⟨t, ?_, by rwa [← List.append_cons] at ht⟩
    rw [List.foldlM_cons, hstep]
    exact hrun

/-- A loop with a round that fails from every state fails. -/
theorem exists_foldlM_error (h : ∃ x ∈ xs, ∀ s, ∃ e, f s x = .error e) (s : σ) :
    ∃ e, xs.foldlM f s = .error e := by
  obtain ⟨x, hx, hfail⟩ := h
  induction xs generalizing s with
  | nil => cases hx
  | cons y xs ih =>
    rw [List.foldlM_cons]
    cases hy : f s y with
    | error e => exact ⟨e, rfl⟩
    | ok t =>
      rcases List.mem_cons.mp hx with rfl | hx
      · obtain ⟨e, he⟩ := hfail s
        rw [he] at hy
        cases hy
      · exact ih t hx

theorem foldlM_congr_of_mem {f g : σ → α → Except ε σ} (h : ∀ x ∈ xs, ∀ s, f s x = g s x) (s : σ) :
    xs.foldlM f s = xs.foldlM g s := by
  induction xs generalizing s with
  | nil => rfl
  | cons x xs ih =>
    rw [List.foldlM_cons, List.foldlM_cons, h x List.mem_cons_self]
    exact bind_congr fun t => ih (fun y hy => h y (List.mem_cons_of_mem _ hy)) t

theorem foldlM_flatMap {f : σ → β → Except ε σ} {g : α → List β} (s : σ) :
    (xs.flatMap g).foldlM f s = xs.foldlM (fun s x => (g x).foldlM f s) s := by
  induction xs generalizing s with
  | nil => rfl
  | cons x xs ih =>
    rw [List.flatMap_cons, List.foldlM_append, List.foldlM_cons]
    exact bind_congr fun t => ih t

theorem mapM_eq_ok_iff {f : α → Except ε β} {l' : List β} :
    l.mapM f = .ok l' ↔ List.Forall₂ (fun a b => f a = .ok b) l l' := by
  induction l generalizing l' with
  | nil =>
    rw [List.mapM_nil, List.forall₂_nil_left_iff]
    exact ⟨fun h => (Except.ok.inj h).symm, fun h => congrArg _ h.symm⟩
  | cons a l ih =>
    rw [List.mapM_cons, List.forall₂_cons_left_iff]
    constructor
    · intro h
      obtain ⟨b, hb, h⟩ := bind_eq_ok.mp h
      obtain ⟨bs, hbs, h⟩ := bind_eq_ok.mp h
      exact ⟨b, bs, hb, ih.mp hbs, (Except.ok.inj h).symm⟩
    · rintro ⟨b, bs, hb, hbs, rfl⟩
      rw [hb, ih.mpr hbs]
      rfl

theorem exists_mapM_error {f : α → Except ε β} (h : ∃ a ∈ l, ∃ e, f a = .error e) :
    ∃ e, l.mapM f = .error e := by
  obtain ⟨a, ha, e, he⟩ := h
  cases hl : l.mapM f with
  | error e => exact ⟨e, rfl⟩
  | ok bs =>
    obtain ⟨i, hi, rfl⟩ := List.getElem_of_mem ha
    obtain ⟨hlength, hget⟩ := List.forall₂_iff_get.mp (mapM_eq_ok_iff.mp hl)
    have hok := hget i hi (hlength ▸ hi)
    rw [List.get_eq_getElem, he] at hok
    cases hok

theorem exists_mapM {f : α → Except ε β} (h : ¬ ∃ a ∈ l, ∃ e, f a = .error e) :
    ∃ bs, l.mapM f = .ok bs := by
  induction l with
  | nil => exact ⟨[], rfl⟩
  | cons a l ih =>
    obtain ⟨bs, hbs⟩ := ih fun ⟨b, hb, he⟩ => h ⟨b, List.mem_cons_of_mem _ hb, he⟩
    cases ha : f a with
    | error e => exact absurd ⟨a, List.mem_cons_self, e, ha⟩ h
    | ok b => exact ⟨b :: bs, mapM_eq_ok_iff.mpr (.cons ha (mapM_eq_ok_iff.mp hbs))⟩

end Failure
