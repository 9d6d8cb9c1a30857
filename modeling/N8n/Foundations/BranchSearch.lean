import Mathlib.Data.List.Induction
import Mathlib.Logic.Relation

/-!
# Searching backwards for branches

A search goes from the goal of a graph against its edges and follows every branch on its own. A
branch that gets to the start is kept, one that gets to the goal again is dropped, and one that gets
to another place it went through is kept as well. The kept branches are the walks from the start to
the goal, unless a cycle leads to the goal that the start does not lead to.

## Main definitions

* `IsWalk`, `Direct`: walks, and those through neither the start nor the goal
* `OnWalk`: an edge of a direct walk from the start to the goal
* `Grow`, `Ends`: how a branch goes on, and when it is kept
* `Kept`: an edge of a branch that is kept
* `CyclesReached`: the start leads to every cycle that leads to the goal

## Main results

* `kept_of_onWalk`: no edge of a direct walk is missed
* `forall_kept_onWalk_iff`: when no other edge is kept
-/

namespace BranchSearch

variable {ν ε : Type*} (edge : ε → Prop) (src tgt : ε → ν) (start goal : ν)

/-! ## Walks -/

def IsWalk : ν → ν → List ε → Prop
  | a, b, [] => a = b
  | a, b, e :: w => edge e ∧ src e = a ∧ IsWalk (tgt e) b w

def Inner (x : ν) : Prop := x ≠ start ∧ x ≠ goal

/-- A walk with none of both between its ends. -/
def Direct (w : List ε) : Prop := ∀ e ∈ w.tail, Inner start goal (src e)

def OnWalk (e : ε) : Prop :=
  ∃ w, IsWalk edge src tgt start goal w ∧ Direct src start goal w ∧ e ∈ w

def FromStart (x : ν) : Prop :=
  ∃ w, IsWalk edge src tgt start x w ∧ Direct src start goal w

/-- The start leads to every place that is on a cycle and leads to the goal, both without the start
and the goal. -/
def CyclesReached : Prop :=
  ∀ x cycle w, cycle ≠ [] → IsWalk edge src tgt x x cycle → IsWalk edge src tgt x goal w →
    (∀ e ∈ cycle, Inner start goal (src e)) → (∀ e ∈ w, Inner start goal (src e)) →
    FromStart edge src tgt start goal x

/-! ## Branches -/

/-- A branch gets to the next place: the place, and the walk from there to the goal. -/
def Grow (s t : ν × List ε) : Prop :=
  s.1 ≠ start ∧ (∀ e ∈ s.2, tgt e ≠ s.1) ∧ ∃ e, edge e ∧ tgt e = s.1 ∧ t = (src e, e :: s.2)

/-- The branch is kept. -/
def Ends (s : ν × List ε) : Prop := s.1 = start ∨ s.1 ≠ goal ∧ ∃ e ∈ s.2, tgt e = s.1

def Branch : ν × List ε → Prop := Relation.ReflTransGen (Grow edge src tgt start) (goal, [])

def Kept (e : ε) : Prop :=
  ∃ s, Branch edge src tgt start goal s ∧ Ends tgt start goal s ∧ e ∈ s.2

variable {edge src tgt start goal} {a b c x : ν} {e : ε} {w w' : List ε} {s t : ν × List ε}

section Walks

theorem IsWalk.append (h : IsWalk edge src tgt a b w) (h' : IsWalk edge src tgt b c w') :
    IsWalk edge src tgt a c (w ++ w') := by
  induction w generalizing a with
  | nil =>
    obtain rfl : a = b := h
    exact h'
  | cons e w ih => exact ⟨h.1, h.2.1, ih h.2.2⟩

theorem IsWalk.of_append (h : IsWalk edge src tgt a c (w ++ w')) :
    ∃ b, IsWalk edge src tgt a b w ∧ IsWalk edge src tgt b c w' := by
  induction w generalizing a with
  | nil => exact ⟨a, rfl, h⟩
  | cons e w ih =>
    obtain ⟨b, hw, hw'⟩ := ih h.2.2
    exact ⟨b, ⟨h.1, h.2.1, hw⟩, hw'⟩

theorem IsWalk.edge_of_mem (h : IsWalk edge src tgt a b w) (he : e ∈ w) : edge e := by
  induction w generalizing a with
  | nil => cases he
  | cons e' w ih =>
    rcases List.mem_cons.mp he with rfl | he
    · exact h.1
    · exact ih h.2.2 he

/-- Walks that meet at a place that is neither the start nor the goal are one direct walk. -/
theorem Direct.append (h : Direct src start goal w) (h' : ∀ e ∈ w', Inner start goal (src e)) :
    Direct src start goal (w ++ w') := by
  intro e he
  cases w with
  | nil => exact h' e (List.mem_of_mem_tail he)
  | cons e' w =>
    rcases List.mem_append.mp he with he | he
    · exact h e he
    · exact h' e he

theorem direct_of_inner (h : ∀ e ∈ w, Inner start goal (src e)) : Direct src start goal w :=
  fun e he => h e (List.mem_of_mem_tail he)

/-- The source of an edge of a direct walk is the start, or the start leads to it. -/
theorem OnWalk.fromStart (h : OnWalk edge src tgt start goal e) :
    FromStart edge src tgt start goal (src e) := by
  obtain ⟨w, hw, hdirect, he⟩ := h
  obtain ⟨w₁, w₂, rfl⟩ := List.append_of_mem he
  obtain ⟨b, hw₁, -, hsrc, -⟩ := hw.of_append
  refine ⟨w₁, hsrc ▸ hw₁, fun e' he' => hdirect e' ?_⟩
  cases w₁ with
  | nil => cases he'
  | cons e₁ w₁ => exact List.mem_append_left _ he'

end Walks

/-! ## What the branches look like -/

section Branches

theorem Grow.cons (h : Grow edge src tgt start s t) : ∃ e, t.2 = e :: s.2 ∧ tgt e = s.1 := by
  obtain ⟨-, -, e, -, htgt, rfl⟩ := h
  exact ⟨e, rfl, htgt⟩

theorem mem_of_grows (h : Relation.ReflTransGen (Grow edge src tgt start) s t) (he : e ∈ s.2) :
    e ∈ t.2 := by
  induction h with
  | refl => exact he
  | tail _ hgrow ih =>
    obtain ⟨e', heq, -⟩ := hgrow.cons
    rw [heq]
    exact List.mem_cons_of_mem _ ih

theorem Branch.walk (h : Branch edge src tgt start goal s) :
    IsWalk edge src tgt s.1 goal s.2 ∧ Direct src start goal s.2 ∧
      (s.2 ≠ [] → ∃ e ∈ s.2, tgt e = goal) := by
  induction h with
  | refl => exact ⟨rfl, fun e he => absurd he List.not_mem_nil, fun hne => absurd rfl hne⟩
  | @tail u v _ hgrow ih =>
    obtain ⟨hstart, hnew, e, he, htgt, rfl⟩ := hgrow
    obtain ⟨hw, hdirect, hgoal⟩ := ih
    refine ⟨⟨he, rfl, htgt ▸ hw⟩, ?_, fun _ => ?_⟩
    · intro e' he'
      cases hcons : u.2 with
      | nil =>
        rw [List.tail_cons, hcons] at he'
        cases he'
      | cons e₁ w₁ =>
        rw [hcons] at hw hdirect
        rw [List.tail_cons, hcons] at he'
        rcases List.mem_cons.mp he' with rfl | he'
        · -- the branch left the place before, which is not the goal again
          obtain ⟨e₂, he₂, hgoal₂⟩ := hgoal (hcons ▸ List.cons_ne_nil _ _)
          rw [hw.2.1]
          exact ⟨hstart, fun heq => hnew e₂ he₂ (hgoal₂.trans heq.symm)⟩
        · exact hdirect e' he'
    · by_cases hnil : u.2 = []
      · rw [hnil] at hw
        exact ⟨e, List.mem_cons_self, htgt.trans hw⟩
      · obtain ⟨e₂, he₂, hgoal₂⟩ := hgoal hnil
        exact ⟨e₂, List.mem_cons_of_mem _ he₂, hgoal₂⟩

/-- A branch that went through a place was there for the first time. -/
theorem Branch.exists_first (h : Branch edge src tgt start goal s)
    (hx : ∃ e ∈ s.2, tgt e = x) :
    ∃ w, Branch edge src tgt start goal (x, w) ∧ ∀ e ∈ w, tgt e ≠ x := by
  induction h with
  | refl =>
    obtain ⟨e, he, -⟩ := hx
    cases he
  | @tail u v hu hgrow ih =>
    obtain ⟨-, hnew, e, -, htgt, rfl⟩ := hgrow
    obtain ⟨e', he', hx'⟩ := hx
    rcases List.mem_cons.mp he' with rfl | he'
    · obtain rfl := htgt.symm.trans hx'
      exact ⟨u.2, hu, hnew⟩
    · exact ih ⟨e', he', hx'⟩

/-- Some branch gets to every place with a walk to the goal through places other than the start and
the goal. -/
theorem exists_branch (hgoal : goal ≠ start) (h : IsWalk edge src tgt x goal w)
    (hinner : ∀ e ∈ w, Inner start goal (src e)) :
    ∃ w, Branch edge src tgt start goal (x, w) ∧ ∀ e ∈ w, tgt e ≠ x := by
  induction w generalizing x with
  | nil =>
    obtain rfl : x = goal := h
    exact ⟨[], .refl, fun e he => absurd he List.not_mem_nil⟩
  | cons e w ih =>
    obtain ⟨he, rfl, hw⟩ := h
    obtain ⟨w', hbranch, hnew⟩ := ih hw fun e' he' => hinner e' (List.mem_cons_of_mem _ he')
    have hstart : tgt e ≠ start := by
      cases w with
      | nil =>
        have hend : tgt e = goal := hw
        rw [hend]
        exact hgoal
      | cons e₁ w₁ =>
        rw [← hw.2.1]
        exact (hinner e₁ (List.mem_cons_of_mem _ List.mem_cons_self)).1
    have hgrow : Branch edge src tgt start goal (src e, e :: w') :=
      hbranch.tail ⟨hstart, hnew, e, he, rfl, rfl⟩
    by_cases hseen : ∃ e' ∈ e :: w', tgt e' = src e
    · exact hgrow.exists_first hseen
    · exact ⟨e :: w', hgrow, fun e' he' heq => hseen ⟨e', he', heq⟩⟩

/-- A branch can go on along a walk that ends where it is, until it is kept or is at the beginning
of the walk. -/
theorem exists_grows (h : IsWalk edge src tgt a s.1 w) (hdirect : Direct src start goal w)
    (hs : w ≠ [] → Inner start goal s.1) :
    ∃ t w', Relation.ReflTransGen (Grow edge src tgt start) s t ∧
      (Ends tgt start goal t ∨ t.1 = a) ∧ IsWalk edge src tgt t.1 s.1 w' ∧ w' <:+ w := by
  induction w using List.reverseRecOn generalizing s with
  | nil => exact ⟨s, [], .refl, .inr h.symm, rfl, List.suffix_rfl⟩
  | append_singleton w e ih =>
    obtain ⟨b, hw, he, rfl, hend⟩ := h.of_append
    have hend : tgt e = s.1 := hend
    have hinner := hs (List.append_ne_nil_of_right_ne_nil _ (List.cons_ne_nil e []))
    by_cases hseen : ∃ e' ∈ s.2, tgt e' = s.1
    · exact ⟨s, [], .refl, .inl (.inr ⟨hinner.2, hseen⟩), rfl, List.nil_suffix⟩
    · have hgrow : Grow edge src tgt start s (src e, e :: s.2) :=
        ⟨hinner.1, fun e' he' heq => hseen ⟨e', he', heq⟩, e, he, hend, rfl⟩
      have hdirect' : Direct src start goal w := by
        intro e' he'
        cases w with
        | nil => cases he'
        | cons e₁ w₁ => exact hdirect e' (List.mem_append_left _ he')
      have hsrc : w ≠ [] → Inner start goal (src e) := by
        intro hne
        refine hdirect e ?_
        cases w with
        | nil => exact absurd rfl hne
        | cons e₁ w₁ => exact List.mem_append_right _ (List.mem_singleton_self e)
      obtain ⟨t, w', hgrows, hends, hw', rest, rfl⟩ :=
        @ih (src e, e :: s.2) hw hdirect' hsrc
      refine ⟨t, w' ++ [e], .head hgrow hgrows, hends, hw'.append ⟨he, rfl, hend⟩, rest, ?_⟩
      rw [List.append_assoc]

end Branches

/-! ## The kept branches -/

section Kept

/-- **No edge of a direct walk from the start to the goal is missed.** -/
theorem kept_of_onWalk (hgoal : goal ≠ start) (h : OnWalk edge src tgt start goal e) :
    Kept edge src tgt start goal e := by
  obtain ⟨w, hw, hdirect, he⟩ := h
  obtain ⟨w₁, w₂, rfl⟩ := List.append_of_mem he
  obtain ⟨b, hw₁, hedge, rfl, hw₂⟩ := hw.of_append
  have hinner : ∀ e' ∈ w₂, Inner start goal (src e') := by
    intro e' he'
    refine hdirect e' ?_
    cases w₁ with
    | nil => exact he'
    | cons e₁ w₁ => exact List.mem_append_right _ (List.mem_cons_of_mem _ he')
  -- a branch to the target of the edge, then over the edge, then along the walk
  obtain ⟨w', hbranch, hnew⟩ := exists_branch hgoal hw₂ hinner
  have hstart : tgt e ≠ start := by
    cases w₂ with
    | nil =>
      have hend : tgt e = goal := hw₂
      rw [hend]
      exact hgoal
    | cons e₂ w₂ =>
      rw [← hw₂.2.1]
      exact (hinner e₂ List.mem_cons_self).1
  have hgrow : Grow edge src tgt start (tgt e, w') (src e, e :: w') :=
    ⟨hstart, hnew, e, hedge, rfl, rfl⟩
  have hdirect₁ : Direct src start goal w₁ := by
    intro e' he'
    cases w₁ with
    | nil => cases he'
    | cons e₁ w₁ => exact hdirect e' (List.mem_append_left _ he')
  have hsrc : w₁ ≠ [] → Inner start goal (src e) := by
    intro hne
    refine hdirect e ?_
    cases w₁ with
    | nil => exact absurd rfl hne
    | cons e₁ w₁ => exact List.mem_append_right _ List.mem_cons_self
  obtain ⟨t, -, hgrows, hends, -, -⟩ := @exists_grows _ _ edge src tgt start goal start w₁
    (src e, e :: w') hw₁ hdirect₁ hsrc
  refine ⟨t, (hbranch.tail hgrow).trans hgrows, hends.elim id .inl, ?_⟩
  exact mem_of_grows hgrows List.mem_cons_self

/-- A branch that is kept is on direct walks if the start leads to the cycles. -/
theorem onWalk_of_kept (hcycles : CyclesReached edge src tgt start goal)
    (h : Kept edge src tgt start goal e) : OnWalk edge src tgt start goal e := by
  obtain ⟨⟨x, w⟩, hbranch, hends, he⟩ := h
  obtain ⟨hw, hdirect, -⟩ := hbranch.walk
  by_cases hstart : x = start
  · subst hstart
    exact ⟨w, hw, hdirect, he⟩
  · obtain ⟨hgoal, e', he', htgt⟩ := hends.resolve_left hstart
    have hx : Inner start goal x := ⟨hstart, hgoal⟩
    have hinner : ∀ e ∈ w, Inner start goal (src e) := by
      intro e he
      cases w with
      | nil => cases he
      | cons e₁ w =>
        rcases List.mem_cons.mp he with rfl | he
        · exact hw.2.1 ▸ hx
        · exact hdirect e he
    -- the branch is cut where it was at its last place before
    obtain ⟨w₁, w₂, rfl⟩ := List.append_of_mem he'
    obtain ⟨b, hw₁, hedge, rfl, hw₂⟩ := hw.of_append
    have hcycle : IsWalk edge src tgt x x (w₁ ++ [e']) := hw₁.append ⟨hedge, rfl, htgt⟩
    have hback : IsWalk edge src tgt x goal w₂ := by
      rw [← show tgt e' = x from htgt]
      exact hw₂
    obtain ⟨w₀, hw₀, hdirect₀⟩ := hcycles x (w₁ ++ [e']) w₂ (by simp) hcycle hback
      (fun e he => hinner e (by
        rcases List.mem_append.mp he with he | he
        · exact List.mem_append_left _ he
        · exact List.mem_append_right _ (List.mem_singleton.mp he ▸ List.mem_cons_self)))
      (fun e he => hinner e (List.mem_append_right _ (List.mem_cons_of_mem _ he)))
    exact ⟨w₀ ++ (w₁ ++ e' :: w₂), hw₀.append hw, hdirect₀.append hinner,
      List.mem_append_right _ he⟩

/-- **Only edges of direct walks are kept exactly when** the start leads to every cycle that leads
to the goal. -/
theorem forall_kept_onWalk_iff (hgoal : goal ≠ start) :
    (∀ e, Kept edge src tgt start goal e → OnWalk edge src tgt start goal e) ↔
      CyclesReached edge src tgt start goal := by
  refine ⟨fun h => ?_, fun hcycles e => onWalk_of_kept hcycles⟩
  intro x cycle w hne hcycle hw hinner hinnerw
  obtain ⟨w', hbranch, hnew⟩ := exists_branch hgoal hw hinnerw
  -- the branch goes around the cycle until it is kept
  obtain ⟨rest, e, rfl⟩ : ∃ rest e, cycle = rest ++ [e] :=
    ⟨cycle.dropLast, cycle.getLast hne, (List.dropLast_concat_getLast hne).symm⟩
  obtain ⟨b, hrest, hedge, rfl, hend⟩ := hcycle.of_append
  have hend : tgt e = x := hend
  have hx : Inner start goal x := by
    cases rest with
    | nil =>
      have heq : x = src e := hrest
      rw [heq]
      exact hinner e (List.mem_singleton_self e)
    | cons e₁ rest =>
      rw [← hrest.2.1]
      exact hinner e₁ List.mem_cons_self
  have hgrow : Grow edge src tgt start (x, w') (src e, e :: w') :=
    ⟨hx.1, hnew, e, hedge, hend, rfl⟩
  have hinnerRest : ∀ e' ∈ rest, Inner start goal (src e') :=
    fun e' he' => hinner e' (List.mem_append_left _ he')
  have hsrc := hinner e (List.mem_append_right _ (List.mem_singleton_self e))
  obtain ⟨t, back, hgrows, hends, hback, hsuffix⟩ := @exists_grows _ _ edge src tgt start goal x
    rest (src e, e :: w') hrest (direct_of_inner hinnerRest) fun _ => hsrc
  have hmem : e ∈ t.2 := mem_of_grows hgrows List.mem_cons_self
  have hkept : Ends tgt start goal t := by
    rcases hends with hends | heq
    · exact hends
    · exact .inr ⟨heq ▸ hx.2, e, hmem, heq ▸ hend⟩
  have ht : Branch edge src tgt start goal t := (hbranch.tail hgrow).trans hgrows
  obtain ⟨first, htail⟩ : ∃ first, first ∈ t.2 ∧ src first = t.1 := by
    have hwalk := ht.walk.1
    cases hcons : t.2 with
    | nil =>
      rw [hcons] at hmem
      cases hmem
    | cons e₁ w₁ =>
      rw [hcons] at hwalk
      exact ⟨e₁, List.mem_cons_self, hwalk.2.1⟩
  obtain ⟨w₀, hw₀, hdirect₀⟩ := (h first ⟨t, ht, hkept, htail.1⟩).fromStart
  rw [htail.2] at hw₀
  -- from where it is kept the rest of the cycle leads to the place
  have hlast : IsWalk edge src tgt (src e) x [e] := ⟨hedge, rfl, hend⟩
  refine ⟨w₀ ++ (back ++ [e]), hw₀.append (hback.append hlast), hdirect₀.append fun e' he' => ?_⟩
  rcases List.mem_append.mp he' with he' | he'
  · exact hinnerRest e' (hsuffix.subset he')
  · rw [List.mem_singleton.mp he']
    exact hsrc

end Kept

end BranchSearch
