import N8n.Foundations.VertexElimination

/-!
# Contracting paths

Nodes are spliced out of a graph one at a time: the edges to the node are joined with those from
it, and the edges of the node itself are dropped, those from the node to itself and those that do
not enter it where it can be passed among them. Where a joined edge remembers its two outer ends
only, cycles of such nodes leave no trace: what is left are the paths through them, in whichever
order the nodes are spliced out.

## Main definitions

* `Splicing`: edges that can be joined, and that remember their outer ends
* `excise`, `exciseAll`: nodes are spliced out
* `Passage`: an edge joined from a path through some nodes

## Main results

* `exciseAll_eq`: the paths through the nodes are left
-/

namespace PathContraction

open VertexElimination (Joining)

/-- Edges that can be joined. What is joined in the middle is forgotten, and an edge enters its
target in such a way that the path may go on from there, or not. -/
structure Splicing (ν ε : Type*) extends Joining ν ε where
  enters : ε → Prop
  enters_join : ∀ e f, enters (join e f) ↔ enters f
  join_forget : ∀ e f g, join (join e f) g = join e g

variable {ν ε : Type*} (J : Splicing ν ε) (E : Set ε)

/-- Splice a node out. -/
def excise (E : Set ε) (x : ν) : Set ε :=
  {e | e ∈ E ∧ J.src e ≠ x ∧ J.tgt e ≠ x ∨
    ∃ i ∈ E, ∃ o ∈ E, (J.tgt i = x ∧ J.src i ≠ x ∧ J.enters i) ∧ (J.src o = x ∧ J.tgt o ≠ x) ∧
      J.join i o = e}

def exciseAll (order : List ν) : Set ε := order.foldl (excise J) E

/-- The edge is joined from the edges of a path that enters and passes nodes of a set only. -/
inductive Passage (D : Set ν) : ε → Prop
  | edge {e : ε} : e ∈ E → Passage D e
  | through {e f : ε} : Passage D e → J.tgt e ∈ D → J.enters e → f ∈ E → J.src f = J.tgt e →
      Passage D (J.join e f)

/-- The paths between the other nodes. -/
def passages (D : Set ν) : Set ε := {e | Passage J E D e ∧ J.src e ∉ D ∧ J.tgt e ∉ D}

variable {J E} {D D' : Set ν} {e f : ε} {x : ν} {order : List ν}

/-! ## Paths -/

theorem Passage.mono (h : Passage J E D e) (hsub : D ⊆ D') : Passage J E D' e := by
  induction h with
  | edge he => exact .edge he
  | through _ htgt henters hf hsrc ih => exact .through ih (hsub htgt) henters hf hsrc

theorem Passage.join (h : Passage J E D e) (htgt : J.tgt e ∈ D) (henters : J.enters e)
    (h' : Passage J E D f) (hsrc : J.src f = J.tgt e) : Passage J E D (J.join e f) := by
  induction h' with
  | edge hf => exact .through h htgt henters hf hsrc
  | @through f g _ htgt' henters' hg hsrc' ih =>
    rw [J.src_join] at hsrc
    rw [← J.join_assoc]
    apply Passage.through (ih hsrc) _ _ hg
    · rw [J.tgt_join]
      exact hsrc'
    · rw [J.tgt_join]
      exact htgt'
    · exact (J.enters_join e f).mpr henters'

/-- A path that may pass `x` as well does not, or it is cut at its first and at its last visit of
`x`: what lies between is forgotten. -/
theorem Passage.cases_insert (h : Passage J E (insert x D) e) : Passage J E D e ∨
    ∃ i o, (Passage J E D i ∧ J.tgt i = x ∧ J.enters i) ∧ (Passage J E D o ∧ J.src o = x) ∧
      J.join i o = e := by
  induction h with
  | edge he => exact .inl (.edge he)
  | @through e f _ htgt henters hf hsrc ih =>
    rcases ih with hold | ⟨i, o, ⟨hi, hix, hienters⟩, ⟨ho, hox⟩, rfl⟩
    · by_cases hex : J.tgt e = x
      · exact .inr ⟨e, f, ⟨hold, hex, henters⟩, ⟨.edge hf, hsrc.trans hex⟩, rfl⟩
      · exact .inl (.through hold (htgt.resolve_left hex) henters hf hsrc)
    · rw [J.tgt_join] at htgt hsrc
      by_cases hex : J.tgt o = x
      · -- the path comes back to `x`
        refine .inr ⟨i, f, ⟨hi, hix, hienters⟩, ⟨.edge hf, hsrc.trans hex⟩, ?_⟩
        rw [J.join_forget]
      · have hoenters : J.enters o := (J.enters_join i o).mp henters
        refine .inr ⟨i, J.join o f, ⟨hi, hix, hienters⟩,
          ⟨.through ho (htgt.resolve_left hex) hoenters hf hsrc, ?_⟩, (J.join_assoc i o f).symm⟩
        rw [J.src_join, hox]

/-! ## What is left -/

theorem exciseAll_concat : exciseAll J E (order ++ [x]) = excise J (exciseAll J E order) x := by
  rw [exciseAll, List.foldl_append]
  rfl

theorem passages_empty : passages J E ∅ = E := by
  ext e
  constructor
  · rintro ⟨he, -⟩
    cases he with
    | edge he => exact he
    | through _ htgt => exact absurd htgt (Set.notMem_empty _)
  · exact fun he => ⟨.edge he, Set.notMem_empty _, Set.notMem_empty _⟩

/-- A node that no edge touches is spliced out without effect. -/
theorem excise_of_untouched (h : ∀ e ∈ E, J.src e ≠ x ∧ J.tgt e ≠ x) : excise J E x = E := by
  ext e
  constructor
  · rintro (⟨he, -⟩ | ⟨i, hi, o, -, ⟨hix, -⟩, -⟩)
    · exact he
    · exact absurd hix (h i hi).2
  · exact fun he => .inl ⟨he, h e he⟩

/-- **One node**: its edges give way to the paths that pass it. -/
theorem excise_passages : excise J (passages J E D) x = passages J E (insert x D) := by
  by_cases hx : x ∈ D
  · rw [Set.insert_eq_of_mem hx]
    apply excise_of_untouched
    rintro e ⟨-, hsrc, htgt⟩
    exact ⟨fun heq => hsrc (heq ▸ hx), fun heq => htgt (heq ▸ hx)⟩
  ext e
  constructor
  · rintro (⟨⟨he, hsrc, htgt⟩, hsrcx, htgtx⟩ |
      ⟨i, ⟨hi, hisrc, -⟩, o, ⟨ho, -, hotgt⟩, ⟨hix, hisrcx, henters⟩, ⟨hox, hotgtx⟩, rfl⟩)
    · refine ⟨he.mono (Set.subset_insert _ _), ?_, ?_⟩
      · rintro (heq | hin)
        exacts [hsrcx heq, hsrc hin]
      · rintro (heq | hin)
        exacts [htgtx heq, htgt hin]
    · refine ⟨?_, ?_, ?_⟩
      · exact (hi.mono (Set.subset_insert _ _)).join (.inl hix) henters
          (ho.mono (Set.subset_insert _ _)) (hox.trans hix.symm)
      · rw [J.src_join]
        rintro (heq | hin)
        exacts [hisrcx heq, hisrc hin]
      · rw [J.tgt_join]
        rintro (heq | hin)
        exacts [hotgtx heq, hotgt hin]
  · rintro ⟨he, hsrc, htgt⟩
    have hsrcD : J.src e ∉ D := fun hin => hsrc (.inr hin)
    have htgtD : J.tgt e ∉ D := fun hin => htgt (.inr hin)
    have hsrcx : J.src e ≠ x := fun heq => hsrc (.inl heq)
    have htgtx : J.tgt e ≠ x := fun heq => htgt (.inl heq)
    rcases he.cases_insert with hold | ⟨i, o, ⟨hi, hix, henters⟩, ⟨ho, hox⟩, rfl⟩
    · exact .inl ⟨⟨hold, hsrcD, htgtD⟩, hsrcx, htgtx⟩
    · rw [J.src_join] at hsrcD hsrcx
      rw [J.tgt_join] at htgtD htgtx
      exact .inr ⟨i, ⟨hi, hsrcD, hix ▸ hx⟩, o, ⟨ho, hox ▸ hx, htgtD⟩, ⟨hix, hsrcx, henters⟩,
        ⟨hox, htgtx⟩, rfl⟩

/-- **All nodes**: the paths through them are left, with or without cycles. -/
theorem exciseAll_eq : exciseAll J E order = passages J E {y | y ∈ order} := by
  induction order using List.reverseRecOn with
  | nil =>
    have hempty : {y : ν | y ∈ ([] : List ν)} = ∅ := by
      ext y
      simp
    rw [hempty, passages_empty]
    rfl
  | append_singleton order x ih =>
    rw [exciseAll_concat, ih, excise_passages, VertexElimination.setOf_mem_concat]

end PathContraction
