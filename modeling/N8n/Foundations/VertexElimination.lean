import Mathlib.Data.List.Induction
import Mathlib.Data.Set.Insert

/-!
# Taking nodes out of a graph

When a node is taken out of a graph, every edge to it is joined with every edge from it. As long as
the nodes that are taken out are on no cycle of their own, what is left are the joined walks through
them, in whichever order they are taken out. A cycle of them leaves an edge behind.

## Main definitions

* `Joining`: edges that can be joined
* `eliminate`, `eliminateAll`: nodes are taken out
* `Bridge`: an edge joined from a walk through some nodes
* `Cyclic`: some nodes have a cycle of their own

## Main results

* `eliminateAll_eq`: what is left, without a cycle
* `exists_loop_mem_eliminateAll`: what else is left, with a cycle
-/

namespace VertexElimination

/-- Edges, and the edge that two of them are joined to. -/
structure Joining (ν ε : Type*) where
  src : ε → ν
  tgt : ε → ν
  join : ε → ε → ε
  src_join : ∀ e f, src (join e f) = src e
  tgt_join : ∀ e f, tgt (join e f) = tgt f
  join_assoc : ∀ e f g, join (join e f) g = join e (join f g)

variable {ν ε : Type*} (J : Joining ν ε) (E : Set ε)

/-- Take a node out, and join the edges to it with those from it. -/
def eliminate (E : Set ε) (x : ν) : Set ε :=
  {e | e ∈ E ∧ J.src e ≠ x ∧ J.tgt e ≠ x ∨
    ∃ i ∈ E, ∃ o ∈ E, J.tgt i = x ∧ J.src o = x ∧ J.join i o = e}

def eliminateAll (order : List ν) : Set ε := order.foldl (eliminate J) E

/-- The edge is joined from the edges of a walk that goes through nodes of a set only. -/
inductive Bridge (D : Set ν) : ε → Prop
  | edge {e : ε} : e ∈ E → Bridge D e
  | through {e f : ε} : Bridge D e → J.tgt e ∈ D → f ∈ E → J.src f = J.tgt e →
      Bridge D (J.join e f)

/-- A walk from a node to itself, through nodes of a set. -/
def LoopAt (D : Set ν) (x : ν) : Prop := ∃ e, Bridge J E D e ∧ J.src e = x ∧ J.tgt e = x

/-- Some nodes have a cycle of their own. -/
def Cyclic (D : Set ν) : Prop := ∃ x ∈ D, LoopAt J E D x

/-- The joined walks between the other nodes. -/
def bridges (D : Set ν) : Set ε := {e | Bridge J E D e ∧ J.src e ∉ D ∧ J.tgt e ∉ D}

variable {J E} {D D' : Set ν} {e f : ε} {x : ν} {order : List ν}

/-! ## Joined walks -/

theorem Bridge.mono (h : Bridge J E D e) (hsub : D ⊆ D') : Bridge J E D' e := by
  induction h with
  | edge he => exact .edge he
  | through _ htgt hf hsrc ih => exact .through ih (hsub htgt) hf hsrc

theorem Bridge.join (h : Bridge J E D e) (htgt : J.tgt e ∈ D) (h' : Bridge J E D f)
    (hsrc : J.src f = J.tgt e) : Bridge J E D (J.join e f) := by
  induction h' with
  | edge hf => exact .through h htgt hf hsrc
  | @through f g _ htgt' hg hsrc' ih =>
    rw [J.src_join] at hsrc
    rw [← J.join_assoc]
    apply Bridge.through (ih hsrc) _ hg
    · rw [J.tgt_join]
      exact hsrc'
    · rw [J.tgt_join]
      exact htgt'

/-- A walk that may go through `x` as well does not, or it is cut at its first and its last visit
of `x`, which is one visit if no loop is at `x`. -/
theorem Bridge.cases_insert (h : Bridge J E (insert x D) e) : Bridge J E D e ∨
    ∃ i o, Bridge J E D i ∧ J.tgt i = x ∧ Bridge J E D o ∧ J.src o = x ∧ J.src i = J.src e ∧
      J.tgt o = J.tgt e ∧ (J.join i o = e ∨ LoopAt J E D x) := by
  induction h with
  | edge he => exact .inl (.edge he)
  | @through e f _ htgt hf hsrc ih =>
    rw [J.src_join, J.tgt_join]
    rcases ih with hold | ⟨i, o, hi, hix, ho, hox, hisrc, hotgt, hcut⟩
    · by_cases hex : J.tgt e = x
      · exact .inr ⟨e, f, hold, hex, .edge hf, hsrc.trans hex, rfl, rfl, .inl rfl⟩
      · exact .inl (.through hold (htgt.resolve_left hex) hf hsrc)
    · by_cases hex : J.tgt e = x
      · -- the walk comes back to `x`
        exact .inr ⟨i, f, hi, hix, .edge hf, hsrc.trans hex, hisrc, rfl,
          .inr ⟨o, ho, hox, hotgt.trans hex⟩⟩
      · have hthrough : Bridge J E D (J.join o f) :=
          .through ho (hotgt ▸ htgt.resolve_left hex) hf (hsrc.trans hotgt.symm)
        refine .inr ⟨i, J.join o f, hi, hix, hthrough, ?_, hisrc, ?_, ?_⟩
        · rw [J.src_join, hox]
        · rw [J.tgt_join]
        · rcases hcut with heq | hloop
          · exact .inl (by rw [← J.join_assoc, heq])
          · exact .inr hloop

/-- A cycle that is new with `x` is a loop at `x`. -/
theorem loopAt_of_cyclic_insert (h : Cyclic J E (insert x D)) (hD : ¬ Cyclic J E D) :
    LoopAt J E D x := by
  obtain ⟨y, hy, e, he, hsrc, htgt⟩ := h
  rcases he.cases_insert with hold | ⟨i, o, hi, hix, ho, hox, hisrc, hotgt, -⟩
  · rcases hy with rfl | hy
    · exact ⟨e, hold, hsrc, htgt⟩
    · exact absurd ⟨y, hy, e, hold, hsrc, htgt⟩ hD
  · rcases hy with rfl | hy
    · exact ⟨i, hi, hisrc.trans hsrc, hix⟩
    · -- from `x` to `y`, and from there to `x`
      have hoy : J.tgt o = y := hotgt.trans htgt
      have hjoined : Bridge J E D (J.join o i) :=
        ho.join (hoy ▸ hy) hi ((hisrc.trans hsrc).trans hoy.symm)
      exact ⟨J.join o i, hjoined, by rw [J.src_join, hox], by rw [J.tgt_join, hix]⟩

/-! ## What is left -/

theorem eliminateAll_concat : eliminateAll J E (order ++ [x]) =
    eliminate J (eliminateAll J E order) x := by
  rw [eliminateAll, List.foldl_append]
  rfl

theorem setOf_mem_concat : {y | y ∈ order ++ [x]} = insert x {y | y ∈ order} := by
  ext y
  simp [or_comm]

/-- Nothing but joined walks is left. -/
theorem bridge_of_mem_eliminateAll (h : e ∈ eliminateAll J E order) :
    Bridge J E {y | y ∈ order} e := by
  induction order using List.reverseRecOn generalizing e with
  | nil => exact .edge h
  | append_singleton order x ih =>
    rw [eliminateAll_concat] at h
    rw [setOf_mem_concat]
    rcases h with ⟨he, -⟩ | ⟨i, hi, o, ho, hix, hox, rfl⟩
    · exact (ih he).mono (Set.subset_insert _ _)
    · refine ((ih hi).mono (Set.subset_insert _ _)).join (.inl hix) ?_ (hox.trans hix.symm)
      exact (ih ho).mono (Set.subset_insert _ _)

/-- **One node**: it splits the walks through it, unless it is on a cycle. -/
theorem eliminate_bridges (hx : x ∉ D) (hacyclic : ¬ Cyclic J E (insert x D)) :
    eliminate J (bridges J E D) x = bridges J E (insert x D) := by
  have hnoloop : ¬ LoopAt J E D x := by
    rintro ⟨e, he, hsrc, htgt⟩
    exact hacyclic ⟨x, .inl rfl, e, he.mono (Set.subset_insert _ _), hsrc, htgt⟩
  ext e
  constructor
  · rintro (⟨⟨he, hsrc, htgt⟩, hsrcx, htgtx⟩ |
      ⟨i, ⟨hi, hisrc, -⟩, o, ⟨ho, -, hotgt⟩, hix, hox, rfl⟩)
    · refine ⟨he.mono (Set.subset_insert _ _), ?_, ?_⟩
      · rintro (heq | hin)
        exacts [hsrcx heq, hsrc hin]
      · rintro (heq | hin)
        exacts [htgtx heq, htgt hin]
    · refine ⟨?_, ?_, ?_⟩
      · exact (hi.mono (Set.subset_insert _ _)).join (.inl hix)
          (ho.mono (Set.subset_insert _ _)) (hox.trans hix.symm)
      · rw [J.src_join]
        rintro (heq | hin)
        exacts [hnoloop ⟨i, hi, heq, hix⟩, hisrc hin]
      · rw [J.tgt_join]
        rintro (heq | hin)
        exacts [hnoloop ⟨o, ho, hox, heq⟩, hotgt hin]
  · rintro ⟨he, hsrc, htgt⟩
    have hsrcD : J.src e ∉ D := fun hin => hsrc (.inr hin)
    have htgtD : J.tgt e ∉ D := fun hin => htgt (.inr hin)
    rcases he.cases_insert with hold | ⟨i, o, hi, hix, ho, hox, hisrc, hotgt, hcut⟩
    · exact .inl ⟨⟨hold, hsrcD, htgtD⟩, fun heq => hsrc (.inl heq), fun heq => htgt (.inl heq)⟩
    · have heq : J.join i o = e := hcut.resolve_right hnoloop
      exact .inr ⟨i, ⟨hi, hisrc ▸ hsrcD, hix ▸ hx⟩, o, ⟨ho, hox ▸ hx, hotgt ▸ htgtD⟩, hix, hox,
        heq⟩

theorem Cyclic.mono (h : Cyclic J E D) (hsub : D ⊆ D') : Cyclic J E D' := by
  obtain ⟨x, hx, e, he, hends⟩ := h
  exact ⟨x, hsub hx, e, he.mono hsub, hends⟩

/-- **Without a cycle** the joined walks are left. -/
theorem eliminateAll_eq (hnodup : order.Nodup) (hacyclic : ¬ Cyclic J E {y | y ∈ order}) :
    eliminateAll J E order = bridges J E {y | y ∈ order} := by
  induction order using List.reverseRecOn with
  | nil =>
    ext e
    refine ⟨fun he => ⟨.edge he, List.not_mem_nil, List.not_mem_nil⟩, ?_⟩
    rintro ⟨he, -⟩
    cases he with
    | edge he => exact he
    | through _ htgt => exact absurd htgt List.not_mem_nil
  | append_singleton order x ih =>
    obtain ⟨hnodup', -, hx⟩ := List.nodup_append.mp hnodup
    rw [setOf_mem_concat] at hacyclic ⊢
    have hbefore : ¬ Cyclic J E {y | y ∈ order} :=
      fun h => hacyclic (h.mono (Set.subset_insert _ _))
    rw [eliminateAll_concat, ih hnodup' hbefore]
    exact eliminate_bridges (fun hin => hx x hin x (List.mem_singleton_self x) rfl) hacyclic

/-- **With a cycle** a loop is left, at one of the nodes that were taken out. -/
theorem exists_loop_mem_eliminateAll (hnodup : order.Nodup)
    (hcyclic : Cyclic J E {y | y ∈ order}) :
    ∃ e ∈ eliminateAll J E order, J.src e ∈ order ∧ J.tgt e = J.src e := by
  induction order using List.reverseRecOn with
  | nil =>
    obtain ⟨x, hx, -⟩ := hcyclic
    exact absurd hx List.not_mem_nil
  | append_singleton order x ih =>
    obtain ⟨hnodup', -, hx⟩ := List.nodup_append.mp hnodup
    have hnew : x ∉ order := fun hin => hx x hin x (List.mem_singleton_self x) rfl
    rw [setOf_mem_concat] at hcyclic
    rw [eliminateAll_concat]
    by_cases hbefore : Cyclic J E {y | y ∈ order}
    · obtain ⟨e, he, hsrc, htgt⟩ := ih hnodup' hbefore
      have hne : J.src e ≠ x := fun heq => hnew (heq ▸ hsrc)
      exact ⟨e, .inl ⟨he, hne, htgt ▸ hne⟩, List.mem_append_left _ hsrc, htgt⟩
    · -- the cycle is a loop at the last node, which is joined with itself
      obtain ⟨e, he, hsrc, htgt⟩ := loopAt_of_cyclic_insert hcyclic hbefore
      have hleft : e ∈ eliminateAll J E order := by
        rw [eliminateAll_eq hnodup' hbefore]
        exact ⟨he, hsrc ▸ hnew, htgt ▸ hnew⟩
      refine ⟨J.join e e, .inr ⟨e, hleft, e, hleft, htgt, hsrc, rfl⟩, ?_, ?_⟩
      · rw [J.src_join, hsrc]
        exact List.mem_append_right _ (List.mem_singleton_self x)
      · rw [J.src_join, J.tgt_join, htgt, hsrc]

end VertexElimination
