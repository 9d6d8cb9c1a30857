import Mathlib.Logic.Basic

/-!
# Things at places

Things are at places, and a step moves them: each one stays, leaves, or goes to one place. When
every thing was at one place at most, this is so after the step.

## Main definitions

* `Custody.Exclusive`: a thing is at one place at most
* `Custody.Move`, `Custody.Moves`: what happens to a thing, and to all of them
* `Custody.Move.only`: only one thing moves

## Main results

* `Custody.Exclusive.moves`: a step keeps things at one place at most
* `Custody.Moves.exists_place`: who has a place after a step
-/

namespace Custody

universe u v

variable {β : Type u} {π : Type v} {at' after : β → π → Prop}

/-- A thing is at one place at most. -/
def Exclusive (at' : β → π → Prop) : Prop := ∀ ⦃b p q⦄, at' b p → at' b q → p = q

/-- What happens to one thing. -/
inductive Move (π : Type v)
  | stay
  | leave
  | go (place : π)

theorem Move.leave_ne_stay : (.leave : Move π) ≠ .stay := nofun

theorem Move.go_ne_stay {p : π} : Move.go p ≠ .stay := nofun

theorem Move.go_ne_leave {p : π} : Move.go p ≠ .leave := nofun

/-- Where a thing is after its move. -/
def Move.At (m : Move π) (before : π → Prop) (p : π) : Prop :=
  match m with
  | .stay => before p
  | .leave => False
  | .go q => p = q

/-- The same move, among other places. -/
def Move.map {ρ : Type*} (f : π → ρ) : Move π → Move ρ
  | .stay => .stay
  | .leave => .leave
  | .go p => .go (f p)

/-- A step moves things. -/
def Moves (at' after : β → π → Prop) (m : β → Move π) : Prop :=
  ∀ b p, after b p ↔ (m b).At (at' b) p

def Move.only [DecidableEq β] (b : β) (m : Move π) : β → Move π :=
  fun b' => if b' = b then m else .stay

section Only

variable [DecidableEq β] {b b' : β} {m : Move π}

@[simp] theorem Move.only_self : Move.only b m b = m := if_pos rfl

theorem Move.only_of_ne (h : b' ≠ b) : Move.only b m b' = .stay := if_neg h

theorem Move.map_only {ρ : Type*} (f : π → ρ) :
    (fun b' => (Move.only b m b').map f) = Move.only b (m.map f) := by
  funext b'
  by_cases h : b' = b
  · rw [h, Move.only_self, Move.only_self]
  · rw [Move.only_of_ne h, Move.only_of_ne h]
    rfl

theorem Moves.only (hself : ∀ p, after b p ↔ m.At (at' b) p)
    (hother : ∀ b', b' ≠ b → ∀ p, after b' p ↔ at' b' p) : Moves at' after (Move.only b m) := by
  intro b' p
  by_cases h : b' = b
  · rw [h, Move.only_self]
    exact hself p
  · rw [Move.only_of_ne h]
    exact hother b' h p

end Only

variable {m : β → Move π}

theorem Exclusive.moves (h : Exclusive at') (hm : Moves at' after m) : Exclusive after := by
  intro b p q hp hq
  have hp' := (hm b p).mp hp
  have hq' := (hm b q).mp hq
  cases hmove : m b with
  | stay =>
    rw [hmove] at hp' hq'
    exact h hp' hq'
  | leave =>
    rw [hmove] at hp'
    exact hp'.elim
  | go r =>
    rw [hmove] at hp' hq'
    exact hp'.trans hq'.symm

theorem Moves.exists_place {b : β} (hm : Moves at' after m) (hleave : m b ≠ .leave)
    (hstay : m b = .stay → ∃ p, at' b p) : ∃ p, after b p := by
  cases hmove : m b with
  | stay =>
    obtain ⟨p, hp⟩ := hstay hmove
    refine ⟨p, (hm b p).mpr ?_⟩
    rw [hmove]
    exact hp
  | leave => exact absurd hmove hleave
  | go q =>
    refine ⟨q, (hm b q).mpr ?_⟩
    rw [hmove]
    exact rfl

end Custody
