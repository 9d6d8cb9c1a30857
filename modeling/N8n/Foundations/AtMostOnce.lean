import Mathlib.Data.List.Nodup
import Mathlib.Data.List.Perm.Basic

/-!
# What happens at most once

Two ways to see that something happens at most once. A log of what happened may be backed by
tickets: each entry of the log takes a ticket that has been issued and that nobody else can take.
Or each entry closes a thing that was open, and what is closed is not opened again.

## Main definitions

* `Tickets`: what is in the log and the tickets that are held have been issued
* `Once`: nothing that is in the log is open, and nothing is in it twice

## Main results

* `Tickets.spend`, `Tickets.issue`, `Tickets.lose`: the rules of tickets
* `Once.close`, `Once.narrow`: the rules of what is open
-/

universe u

variable {κ : Type u} {log log' held held' issued : List κ} {k : κ}

/-! ## Tickets -/

section Tickets

variable [DecidableEq κ]

/-- Every entry of the log and every ticket that is held has been issued, each by itself. -/
def Tickets (log held issued : List κ) : Prop :=
  ∀ k, log.count k + held.count k ≤ issued.count k

theorem tickets_nil : Tickets ([] : List κ) [] [] := fun _ => Nat.le_refl _

namespace Tickets

section Tickets

variable (h : Tickets log held issued)
include h

theorem count_le (k : κ) : log.count k ≤ issued.count k :=
  Nat.le_trans (Nat.le_add_right _ _) (h k)

theorem issue (k : κ) : Tickets log (held ++ [k]) (issued ++ [k]) := by
  intro k'
  have hle := h k'
  rw [List.count_append, List.count_append]
  omega

theorem lose (hsub : held'.Sublist held) : Tickets log held' issued :=
  fun k => Nat.le_trans (Nat.add_le_add_left (hsub.count_le k) _) (h k)

theorem spend (hperm : held.Perm (k :: held')) : Tickets (log ++ [k]) held' issued := by
  intro k'
  have hle := h k'
  rw [hperm.count_eq, List.count_cons] at hle
  rw [List.count_append, List.count_singleton]
  omega

theorem issue_spend (k : κ) : Tickets (log ++ [k]) held (issued ++ [k]) := by
  apply (h.issue k).spend
  exact List.perm_append_singleton k held

/-- A ticket is issued and not given to anybody. -/
theorem issue_lose (k : κ) : Tickets log held (issued ++ [k]) :=
  (h.issue k).lose (List.sublist_append_left held [k])

end Tickets

end Tickets

end Tickets

/-! ## Things that are open -/

/-- Nothing is in the log twice, and nothing in it is open. -/
structure Once (isOpen : κ → Prop) (log : List κ) : Prop where
  nodup : log.Nodup
  closed : ∀ k ∈ log, ¬ isOpen k

namespace Once

variable {isOpen isOpen' : κ → Prop}

theorem nil : Once isOpen [] := ⟨List.nodup_nil, fun _ h => absurd h List.not_mem_nil⟩

/-- Nothing new is open. -/
theorem narrow (h : Once isOpen log) (hsub : ∀ k, isOpen' k → isOpen k) : Once isOpen' log :=
  ⟨h.nodup, fun k hk hopen => h.closed k hk (hsub k hopen)⟩

theorem close (h : Once isOpen log) (hopen : isOpen k)
    (hsub : ∀ k', isOpen' k' → isOpen k' ∧ k' ≠ k) : Once isOpen' (log ++ [k]) := by
  constructor
  · apply h.nodup.append (List.nodup_singleton k)
    intro k' hk' hself
    rw [List.mem_singleton.mp hself] at hk'
    exact h.closed k hk' hopen
  · intro k' hk' hopen'
    obtain ⟨hbefore, hne⟩ := hsub k' hopen'
    obtain hin | hself := List.mem_append.mp hk'
    · exact h.closed k' hin hbefore
    · exact hne (List.mem_singleton.mp hself)

end Once
