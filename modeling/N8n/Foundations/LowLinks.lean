import N8n.Foundations.ComponentSearch

/-!
# Low values of low values

A component search may let a node take over the low values of its children instead of their
numbers. A low value then travels along the edges in the order in which the search finishes to
follow them, and it does not reach every node of a component: a node takes over the number of the
first node of its component if and only if some path leads there whose edges were followed last
first.

## Main definitions

* `Drains`: a path whose edges were followed last first
* `Traversal`, `traverseFrom`: the plain depth-first traversal, with the order in which it enters nodes
  and the order in which it finishes to follow edges
* `LowInv`: the low values of a search, in terms of the edges followed so far

## Main results

* `LowInv.enter`, `LowInv.lower`, `LowInv.pass`, `LowInv.emit`: the steps of a search
* `Leaving.low_eq_iff`: the nodes of a component that have the number of the first one
* `traverseFrom_grow`: what a traversal adds to the two orders
-/

namespace ComponentSearch

universe u

variable {α : Type u} {succ : α → List α}

/-! ## Draining -/

/-- Some path from `a` to `b` has its edges in the log, newest first. -/
inductive Drains : List (α × α) → α → α → Prop
  | refl (log : List (α × α)) (a : α) : Drains log a a
  | older {log : List (α × α)} {a b : α} (e : α × α) : Drains log a b → Drains (e :: log) a b
  | edge {log : List (α × α)} {a b c : α} : Drains log b c → Drains ((a, b) :: log) a c

namespace Drains

variable {log new : List (α × α)} {a b v c : α}

theorem append (h : Drains log a b) : Drains (new ++ log) a b := by
  induction new with
  | nil => exact h
  | cons e new ih => exact .older e ih

/-- What the newest edge adds. -/
theorem cons_iff : Drains ((v, c) :: log) a b ↔ Drains log a b ∨ (a = v ∧ Drains log c b) := by
  constructor
  · intro h
    cases h with
    | refl => exact .inl (.refl _ _)
    | older _ h => exact .inl h
    | edge h => exact .inr ⟨rfl, h⟩
  · rintro (h | ⟨rfl, h⟩)
    · exact .older _ h
    · exact .edge h

/-- Edges out of other nodes change nothing. -/
theorem of_append (hnew : ∀ e ∈ new, e.1 ≠ a) (h : Drains (new ++ log) a b) : Drains log a b := by
  induction new with
  | nil => exact h
  | cons e new ih =>
    rcases cons_iff.mp h with h | ⟨he, -⟩
    · exact ih (fun e he => hnew e (List.mem_cons_of_mem _ he)) h
    · exact absurd he.symm (hnew e List.mem_cons_self)

theorem reach (hlog : ∀ e ∈ log, e.2 ∈ succ e.1) (h : Drains log a b) : Reach succ a b := by
  induction h with
  | refl log a => exact Reach.refl a
  | older e h ih => exact ih fun e he => hlog e (List.mem_cons_of_mem _ he)
  | edge h ih =>
    exact (Reach.edge (hlog _ List.mem_cons_self)).trans
      (ih fun e he => hlog e (List.mem_cons_of_mem _ he))

/-- A path of some length starts and ends with an edge of the log. -/
theorem ends_mem (h : Drains log a b) (hne : a ≠ b) : (∃ e ∈ log, e.1 = a) ∧ ∃ e ∈ log, e.2 = b := by
  induction h with
  | refl log a => exact absurd rfl hne
  | older e h ih =>
    obtain ⟨⟨e₁, h₁, ha⟩, e₂, h₂, hb⟩ := ih hne
    exact ⟨⟨e₁, List.mem_cons_of_mem _ h₁, ha⟩, e₂, List.mem_cons_of_mem _ h₂, hb⟩
  | @edge log a b c h ih =>
    refine ⟨⟨(a, b), List.mem_cons_self, rfl⟩, ?_⟩
    by_cases hbc : b = c
    · exact ⟨(a, b), List.mem_cons_self, hbc⟩
    · obtain ⟨-, e, he, hec⟩ := ih hbc
      exact ⟨e, List.mem_cons_of_mem _ he, hec⟩

end Drains

/-! ## Low values -/

/-- The low values of a search that takes over low values. -/
structure LowInv (succ : α → List α) (s : State α) (log : List (α × α)) : Prop where
  visited : ∀ e ∈ log, s.Visited e.1 ∧ s.Visited e.2
  edges : ∀ e ∈ log, e.2 ∈ succ e.1
  /-- A low value is the number of a node that the node drains to. -/
  drains : ∀ x ∈ s.stack, ∃ y ∈ s.stack, s.num y = s.low x ∧ Drains log x y
  /-- It is the least such number. -/
  least : ∀ x ∈ s.stack, ∀ y ∈ s.stack, Drains log x y → s.low x ≤ s.num y
  /-- What an emitted node leads to is emitted. -/
  closed : ∀ x, s.Visited x → x ∉ s.stack → ∀ y ∈ succ x, s.Visited y ∧ y ∉ s.stack

variable {gray : α → Prop} {s t : State α} {v c x y : α} {log log' : List (α × α)}

/-- Nothing on the stack is reachable from an emitted node. -/
theorem LowInv.not_mem_of_reach (h : LowInv succ s log) (hr : Reach succ x y)
    (hx : s.Visited x ∧ x ∉ s.stack) : s.Visited y ∧ y ∉ s.stack := by
  induction hr with
  | refl => exact hx
  | tail _ hyz ih => exact h.closed _ ih.1 ih.2 _ hyz

theorem LowInv.empty : LowInv succ (State.empty : State α) [] := by
  constructor <;> simp [State.empty, State.Visited]

section Steps

variable [DecidableEq α]

/-- A node that is entered drains to itself only, and nothing else drains to it. -/
theorem LowInv.enter (h : LowInv succ s log) (hs : Inv succ gray s) (hv : s.index v = none) :
    LowInv succ (s.enter v) log := by
  have hne : ∀ {x}, s.Visited x → x ≠ v := by rintro x hx rfl; exact hx hv
  have hst : ∀ {x}, x ∈ s.stack → x ≠ v := fun hx => hne (hs.stack_visited _ hx)
  have hvis : ∀ {x}, s.Visited x → (s.enter v).Visited x :=
    fun hx => (s.enter_visited v _).mpr (.inr hx)
  refine ⟨fun e he => ⟨hvis (h.visited e he).1, hvis (h.visited e he).2⟩, h.edges, fun x hx => ?_,
    fun x hx y hy hd => ?_, fun x hx hxs y hy => ?_⟩
  · rcases List.mem_cons.mp hx with rfl | hx
    · exact ⟨x, List.mem_cons_self, by simp, .refl log x⟩
    · obtain ⟨y, hy, hnum, hd⟩ := h.drains x hx
      refine ⟨y, List.mem_cons_of_mem _ hy, ?_, hd⟩
      rwa [s.enter_num_of_ne (hst hy), s.enter_low_of_ne (hst hx)]
  · by_cases hxy : x = y
    · subst hxy
      rcases List.mem_cons.mp hx with rfl | hx
      · simp
      · rw [s.enter_low_of_ne (hst hx), s.enter_num_of_ne (hst hx)]
        exact h.least x hx x hx (.refl log x)
    · -- the ends of a path are ends of followed edges, hence entered before
      obtain ⟨⟨e, he, rfl⟩, e', he', rfl⟩ := hd.ends_mem hxy
      have hxv := hne (h.visited e he).1
      have hyv := hne (h.visited e' he').2
      have hx := (List.mem_cons.mp hx).resolve_left hxv
      have hy := (List.mem_cons.mp hy).resolve_left hyv
      rw [s.enter_low_of_ne hxv, s.enter_num_of_ne hyv]
      exact h.least _ hx _ hy hd
  · obtain ⟨hxv, hxs⟩ := not_or.mp (mt List.mem_cons.mpr hxs)
    obtain ⟨hy, hys⟩ := h.closed x (((s.enter_visited v x).mp hx).resolve_left hxv) hxs y hy
    refine ⟨hvis hy, fun hin => ?_⟩
    rcases List.mem_cons.mp hin with rfl | hin
    · exact hy hv
    · exact hys hin

/-- A node that takes over the low value of a child on the stack drains to where the child does. -/
theorem LowInv.lower (h : LowInv succ s log) (hs : Inv succ gray s) (hv : v ∈ s.stack)
    (hc : c ∈ s.stack) (hvc : c ∈ succ v) :
    LowInv succ (s.lower v (s.low c)) ((v, c) :: log) := by
  refine ⟨?_, ?_, fun x hx => ?_, fun x hx y hy hd => ?_, h.closed⟩
  · refine List.forall_mem_cons.mpr ⟨?_, h.visited⟩
    exact ⟨hs.stack_visited v hv, hs.stack_visited c hc⟩
  · exact List.forall_mem_cons.mpr ⟨hvc, h.edges⟩
  · by_cases hxv : x = v
    · subst hxv
      rw [s.lower_low_self]
      rcases min_choice (s.low x) (s.low c) with hm | hm
      · obtain ⟨y, hy, hnum, hd⟩ := h.drains x hx
        exact ⟨y, hy, hnum.trans hm.symm, .older _ hd⟩
      · obtain ⟨y, hy, hnum, hd⟩ := h.drains c hc
        exact ⟨y, hy, hnum.trans hm.symm, .edge hd⟩
    · obtain ⟨y, hy, hnum, hd⟩ := h.drains x hx
      exact ⟨y, hy, by rw [s.lower_low_of_ne _ hxv]; exact hnum, .older _ hd⟩
  · by_cases hxv : x = v
    · subst hxv
      rw [s.lower_low_self]
      rcases Drains.cons_iff.mp hd with hd | ⟨-, hd⟩
      · exact (min_le_left _ _).trans (h.least x hx y hy hd)
      · exact (min_le_right _ _).trans (h.least c hc y hy hd)
    · rw [s.lower_low_of_ne _ hxv]
      rcases Drains.cons_iff.mp hd with hd | ⟨he, -⟩
      · exact h.least x hx y hy hd
      · exact absurd he hxv

omit [DecidableEq α] in
/-- A child whose component is emitted drains to nothing on the stack. -/
theorem LowInv.pass (h : LowInv succ s log) (hv : s.Visited v) (hc : s.Visited c)
    (hcs : c ∉ s.stack) (hvc : c ∈ succ v) : LowInv succ s ((v, c) :: log) := by
  refine ⟨List.forall_mem_cons.mpr ⟨⟨hv, hc⟩, h.visited⟩, List.forall_mem_cons.mpr ⟨hvc, h.edges⟩,
    fun x hx => ?_, fun x hx y hy hd => ?_, h.closed⟩
  · obtain ⟨y, hy, hnum, hd⟩ := h.drains x hx
    exact ⟨y, hy, hnum, .older _ hd⟩
  · rcases Drains.cons_iff.mp hd with hd | ⟨-, hd⟩
    · exact h.least x hx y hy hd
    · exact absurd hy (h.not_mem_of_reach (hd.reach h.edges) ⟨hc, hcs⟩).2

/-- The part of the stack above a node whose low value is its number leads nowhere else. -/
theorem LowInv.emit (h : LowInv succ t log) (hs : Inv succ gray s) (hl : Leaving succ gray s t v)
    (hk : t.low v = s.next) (emitted : List (List α)) :
    LowInv succ { t with stack := s.stack, emitted } log := by
  have hsub : ∀ x ∈ s.stack, x ∈ t.stack :=
    fun x hx => hl.grow.mem_stack (List.mem_cons_of_mem _ hx)
  refine ⟨h.visited, h.edges, fun x hx => ?_, fun x hx y hy => h.least x (hsub x hx) y (hsub y hy),
    fun x hx hxs y hy => ?_⟩
  · obtain ⟨y, hy, hnum, hd⟩ := h.drains x (hsub x hx)
    refine ⟨y, ?_, hnum, hd⟩
    by_contra hys
    have hxv : ¬ t.num v ≤ t.num x := fun hle => (hl.num_le_iff hs (hsub x hx)).mp hle hx
    have hyv := (hl.num_le_iff hs hy).mpr hys
    have := hl.inv.low_le x (hsub x hx)
    omega
  · by_cases hxt : x ∈ t.stack
    · have hindex : s.index x = none := by
        by_contra hne
        obtain ⟨above, he, hnew⟩ := hl.exists_stack
        rw [he] at hxt
        rcases List.mem_append.mp hxt with hxa | hxv
        · exact hne (hnew x hxa).1
        · rcases List.mem_cons.mp hxv with rfl | hxs'
          · exact hne hl.fresh
          · exact hxs hxs'
      refine ⟨?_, fun hys => ?_⟩
      · by_cases hxv : x = v
        · subst hxv
          exact hl.children y hy
        · refine hl.inv.closed x hx (fun hg => ?_) y hy
          exact hg.elim (fun hg => hxs (hl.gray_old x hg)) hxv
      · have hle := hl.edge x hxt hindex y hys hy
        have hlt := hs.num_lt y (hs.stack_visited y hys)
        omega
    · obtain ⟨hyv, hyt⟩ := h.closed x hx hxt y hy
      exact ⟨hyv, fun hys => hyt (hsub y hys)⟩

/-- **The low values of a component** that is emitted: a node has the number of the first node if
and only if it drains there. -/
theorem Leaving.low_eq_iff (hl : Leaving succ gray s t v) (h : LowInv succ t log)
    (hs : Inv succ gray s) (hk : t.low v = s.next) (hx : x ∈ t.stack) (hxs : x ∉ s.stack) :
    t.low x = s.next ↔ Drains log x v := by
  have hclosed := h.emit hs hl hk t.emitted
  obtain ⟨y, hy, hnum, hd⟩ := h.drains x hx
  have hys : y ∉ s.stack :=
    (hclosed.not_mem_of_reach (hd.reach h.edges) ⟨hl.inv.stack_visited x hx, hxs⟩).2
  have hle : s.next ≤ t.low x := by
    rw [← hnum, ← hl.num_self]
    exact (hl.num_le_iff hs hy).mpr hys
  constructor
  · intro hlow
    have hyv : y = v := by
      refine hl.inv.num_inj y v (hl.inv.stack_visited y hy)
        (hl.inv.stack_visited v hl.mem_stack) ?_
      rw [hnum, hlow, hl.num_self]
    exact hyv ▸ hd
  · intro hd
    have := h.least x hx v hl.mem_stack hd
    rw [hl.num_self] at this
    exact le_antisymm this hle

end Steps

/-! ## The plain traversal -/

/-- A depth-first traversal so far. -/
structure Traversal (α : Type u) where
  /-- The nodes in the order in which they were entered. -/
  order : List α
  /-- The edges followed, newest first. -/
  log : List (α × α)

section Traverse

variable [DecidableEq α]

/-- Follow an edge, given how to visit its end. -/
def Traversal.follow (visit : Traversal α → α → Traversal α) (v : α) (d : Traversal α) (c : α) :
    Traversal α :=
  let d := visit d c
  ⟨d.order, (v, c) :: d.log⟩

/-- Visit a node. `fuel` bounds the depth. -/
def traverseFrom (succ : α → List α) : ℕ → Traversal α → α → Traversal α
  | 0, d, _ => d
  | fuel + 1, d, v =>
    if v ∈ d.order then d
    else (succ v).foldl (Traversal.follow (traverseFrom succ fuel) v) ⟨d.order ++ [v], d.log⟩

/-- The second traversal continues the first: the edges it adds start in `sources` or in nodes it
enters. -/
structure Traversal.Continues (sources : α → Prop) (d d' : Traversal α) : Prop where
  order : ∃ new, d'.order = d.order ++ new
  log : ∃ new, d'.log = new ++ d.log ∧ ∀ e ∈ new, sources e.1 ∨ e.1 ∉ d.order

namespace Traversal.Continues

variable {sources sources' : α → Prop} {d d' d'' : Traversal α}

omit [DecidableEq α] in
theorem refl : Continues sources d d := ⟨⟨[], by simp⟩, [], by simp⟩

omit [DecidableEq α] in
theorem mem_order (h : Continues sources d d') (hx : x ∈ d.order) : x ∈ d'.order := by
  obtain ⟨new, he⟩ := h.order
  exact he ▸ List.mem_append_left _ hx

omit [DecidableEq α] in
theorem trans (h : Continues sources d d') (h' : Continues sources d' d'') :
    Continues sources d d'' := by
  obtain ⟨new, he⟩ := h.order
  obtain ⟨new', he'⟩ := h'.order
  obtain ⟨edges, hedges, hsrc⟩ := h.log
  obtain ⟨edges', hedges', hsrc'⟩ := h'.log
  refine ⟨⟨new ++ new', by rw [he', he, List.append_assoc]⟩, edges' ++ edges,
    by rw [hedges', hedges, List.append_assoc], fun e hin => ?_⟩
  rcases List.mem_append.mp hin with hin | hin
  · exact (hsrc' e hin).imp id fun hout hmem => hout (h.mem_order hmem)
  · exact hsrc e hin

omit [DecidableEq α] in
theorem mono (h : Continues sources d d') (hsub : ∀ x, sources x → sources' x) :
    Continues sources' d d' := by
  obtain ⟨new, he, hsrc⟩ := h.log
  exact ⟨h.order, new, he, fun e hin => (hsrc e hin).imp (hsub _) id⟩

omit [DecidableEq α] in
/-- A node that was entered and is no source drains where it did. -/
theorem not_drains (h : Continues sources d d') (hx : x ∈ d.order) (hs : ¬ sources x)
    (hd : ¬ Drains d.log x y) : ¬ Drains d'.log x y := by
  obtain ⟨new, he, hsrc⟩ := h.log
  rw [he]
  refine fun h' => hd (h'.of_append fun e hin heq => ?_)
  rcases hsrc e hin with hsrc | hout
  · exact hs (heq ▸ hsrc)
  · exact hout (heq ▸ hx)

end Traversal.Continues

omit [DecidableEq α] in
/-- Following edges out of `v` adds edges out of `v` and of nodes entered. -/
theorem foldl_follow_grow {visit : Traversal α → α → Traversal α}
    (hvisit : ∀ (d : Traversal α) c, d.Continues (fun _ => False) (visit d c)) (v : α) (cs : List α)
    (d : Traversal α) : d.Continues (· = v) (cs.foldl (Traversal.follow visit v) d) := by
  induction cs generalizing d with
  | nil => exact .refl
  | cons c cs ih =>
    refine .trans ?_ (ih _)
    obtain ⟨horder, new, he, hsrc⟩ := hvisit d c
    refine ⟨horder, (v, c) :: new, by simp [Traversal.follow, he], ?_⟩
    refine List.forall_mem_cons.mpr ⟨.inl rfl, fun e hin => .inr ?_⟩
    exact (hsrc e hin).resolve_left id

/-- **What a traversal adds**: nodes at the end, and edges out of the nodes it enters. -/
theorem traverseFrom_grow (succ : α → List α) (fuel : ℕ) (d : Traversal α) (v : α) :
    d.Continues (fun _ => False) (traverseFrom succ fuel d v) := by
  induction fuel generalizing d v with
  | zero => exact .refl
  | succ fuel ih =>
    unfold traverseFrom
    split_ifs with hv
    · exact .refl
    · obtain ⟨⟨new, horder⟩, edges, he, hsrc⟩ :=
        foldl_follow_grow ih v (succ v) ⟨d.order ++ [v], d.log⟩
      refine ⟨⟨v :: new, by simp [horder]⟩, edges, he, fun e hin => .inr ?_⟩
      rcases hsrc e hin with rfl | hout
      · exact hv
      · exact fun hmem => hout (List.mem_append_left _ hmem)

end Traverse

end ComponentSearch
