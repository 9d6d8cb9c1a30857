import N8n.Foundations.LowLinks
import N8n.Foundations.Remaining

/-!
# The order of a depth-first traversal

The nodes in the order in which a depth-first traversal from one node enters them: every node that
can be reached is entered, and each on a path through nodes that were entered before it.

## Main definitions

* `Before`: a node stands before another one in an order
* `Forward`: an edge to a node that was entered later
* `Entered`: what a traversal from some nodes adds to an order

## Main results

* `traverseFrom_entered`: what a traversal adds
* `mem_traverseFrom_iff`, `forward_traverseFrom`: the traversal from one node
-/

namespace ComponentSearch

universe u

variable {α : Type u}

/-- `a` stands before some place of `b`. -/
def Before (order : List α) (a b : α) : Prop := ∃ left right, order = left ++ b :: right ∧ a ∈ left

def Forward (succ : α → List α) (order : List α) (a b : α) : Prop := b ∈ succ a ∧ Before order a b

/-- What a traversal from some nodes adds: these nodes, and with every new node its successors. -/
structure Entered (succ : α → List α) (items : List α) (order order' : List α) : Prop where
  grows : ∃ new, order' = order ++ new
  nodup : order.Nodup → order'.Nodup
  met : ∀ c ∈ items, c ∈ order'
  closed : ∀ x ∈ order', x ∉ order → ∀ c ∈ succ x, c ∈ order'
  path : ∀ x ∈ order', x ∉ order →
    ∃ c ∈ items, c ∉ order ∧ Relation.ReflTransGen (Forward succ order') c x

variable {succ : α → List α} {order order' order'' items : List α} {a b c v x : α}

theorem Before.append (h : Before order a b) (new : List α) : Before (order ++ new) a b := by
  obtain ⟨left, right, rfl, ha⟩ := h
  exact ⟨left, right ++ new, by simp, ha⟩

/-- An edge that goes forward does so when nodes are added at the end. -/
theorem forward_path_append (h : Relation.ReflTransGen (Forward succ order) a b) (new : List α) :
    Relation.ReflTransGen (Forward succ (order ++ new)) a b :=
  Relation.ReflTransGen.mono (fun _ _ hab => ⟨hab.1, hab.2.append new⟩) a b h

/-- In an order without repetitions there is one place for a node. -/
theorem Before.mem_of_nodup {left right : List α} (h : Before order a b) (hnodup : order.Nodup)
    (horder : order = left ++ b :: right) : a ∈ left := by
  obtain ⟨left', right', horder', ha⟩ := h
  rw [horder] at hnodup
  obtain ⟨-, hright, hapart⟩ := List.nodup_append.mp hnodup
  have hleft : b ∉ left := fun hin => hapart b hin b List.mem_cons_self rfl
  have hinj := (List.append_cons_inj_of_notMem hleft (List.nodup_cons.mp hright).1).mp
    (horder.symm.trans horder')
  exact hinj.1 ▸ ha

/-- The start of a path that goes forward stands before its end. -/
theorem before_of_forward_path (hnodup : order.Nodup)
    (h : Relation.TransGen (Forward succ order) a b) : Before order a b := by
  induction h with
  | single hab => exact hab.2
  | @tail b c _ hbc ih =>
    -- `b` stands before `c`, and `a` before `b`
    obtain ⟨left, right, horder, hb⟩ := hbc.2
    obtain ⟨before, after, rfl⟩ := List.append_of_mem hb
    have hplace : order = before ++ b :: (after ++ c :: right) := by simp [horder]
    have ha : a ∈ before := ih.mem_of_nodup hnodup hplace
    exact ⟨before ++ b :: after, right, horder, List.mem_append_left _ ha⟩

/-- A path that goes forward gets to its end through nodes that stand before it. -/
theorem path_before {left right : List α} (hnodup : order.Nodup)
    (horder : order = left ++ b :: right) (h : Relation.ReflTransGen (Forward succ order) a b) :
    Relation.ReflTransGen (fun x y => y ∈ succ x ∧ x ∈ left) a b := by
  induction h using Relation.ReflTransGen.head_induction_on with
  | refl => exact .refl
  | head hab hrest ih =>
    have hbefore := before_of_forward_path hnodup (.head' hab hrest)
    exact .head ⟨hab.1, hbefore.mem_of_nodup hnodup horder⟩ ih

namespace Entered

theorem nil : Entered succ [] order order :=
  ⟨⟨[], by simp⟩, id, fun _ h => absurd h List.not_mem_nil, fun _ h hnew => absurd h hnew,
    fun _ h hnew => absurd h hnew⟩

/-- A node that was entered before. -/
theorem seen (hv : v ∈ order) : Entered succ [v] order order :=
  ⟨⟨[], by simp⟩, id, fun _ h => List.mem_singleton.mp h ▸ hv, fun _ h hnew => absurd h hnew,
    fun _ h hnew => absurd h hnew⟩

theorem cons (h : Entered succ [c] order order') (h' : Entered succ items order' order'') :
    Entered succ (c :: items) order order'' := by
  obtain ⟨new, hnew⟩ := h.grows
  obtain ⟨new', hnew'⟩ := h'.grows
  have hmono : ∀ x ∈ order', x ∈ order'' := fun x hx => hnew' ▸ List.mem_append_left _ hx
  refine ⟨⟨new ++ new', by rw [hnew', hnew, List.append_assoc]⟩, fun hn => h'.nodup (h.nodup hn),
    ?_, ?_, ?_⟩
  · intro x hx
    rcases List.mem_cons.mp hx with rfl | hx
    · exact hmono x (h.met x (List.mem_singleton_self x))
    · exact h'.met x hx
  · intro x hx hfresh d hd
    by_cases hmid : x ∈ order'
    · exact hmono d (h.closed x hmid hfresh d hd)
    · exact h'.closed x hx hmid d hd
  · intro x hx hfresh
    by_cases hmid : x ∈ order'
    · obtain ⟨d, hd, hdfresh, hpath⟩ := h.path x hmid hfresh
      obtain rfl := List.mem_singleton.mp hd
      exact ⟨d, List.mem_cons_self, hdfresh, hnew' ▸ forward_path_append hpath new'⟩
    · obtain ⟨d, hd, hdfresh, hpath⟩ := h'.path x hx hmid
      refine ⟨d, List.mem_cons_of_mem _ hd, fun hin => hdfresh ?_, hpath⟩
      exact hnew ▸ List.mem_append_left _ hin

/-- A new node is entered before its successors. -/
theorem enter (hv : v ∉ order) (h : Entered succ (succ v) (order ++ [v]) order') :
    Entered succ [v] order order' := by
  obtain ⟨new, hnew⟩ := h.grows
  have hmem : v ∈ order' := by simp [hnew]
  refine ⟨⟨v :: new, by simp [hnew]⟩, fun hn => h.nodup ?_, ?_, ?_, ?_⟩
  · exact hn.append (List.nodup_singleton v) (by simpa using hv)
  · intro x hx
    rwa [List.mem_singleton.mp hx]
  · intro x hx hfresh d hd
    by_cases hxv : x = v
    · exact h.met d (hxv ▸ hd)
    · exact h.closed x hx (by simp [hfresh, hxv]) d hd
  · intro x hx hfresh
    refine ⟨v, List.mem_singleton_self v, hv, ?_⟩
    by_cases hxv : x = v
    · exact hxv ▸ .refl
    · obtain ⟨c, hc, hcfresh, hpath⟩ := h.path x hx (by simp [hfresh, hxv])
      have hcnew : c ∈ new := by
        have hin := h.met c hc
        rw [hnew] at hin
        exact (List.mem_append.mp hin).resolve_left hcfresh
      obtain ⟨left, right, rfl⟩ := List.append_of_mem hcnew
      exact .head ⟨hc, order ++ [v] ++ left, right, by simp [hnew], by simp⟩ hpath

end Entered

/-! ## A traversal from one node -/

section Traverse

variable [DecidableEq α] {all : Finset α} {fuel : ℕ} {d : Traversal α}

theorem card_unentered_concat_lt (hv : v ∈ all) (hnew : v ∉ order) :
    (all.filter (· ∉ order ++ [v])).card < (all.filter (· ∉ order)).card := by
  apply Remaining.card_lt_of_seen _ hv hnew
  · exact not_not_intro (List.mem_append_right _ (List.mem_singleton_self v))
  · exact fun x hx hin => hx (List.mem_append_left _ hin)

theorem card_unentered_le (hsub : ∀ x ∈ order, x ∈ order') :
    (all.filter (· ∉ order')).card ≤ (all.filter (· ∉ order)).card := by
  apply Remaining.card_le_of_seen
  exact fun x hx hin => hx (hsub x hin)

omit [DecidableEq α] in
/-- Following the edges of a node, given what a visit of each successor adds. -/
theorem foldl_follow_entered {visit : Traversal α → α → Traversal α}
    (hvisit : ∀ c ∈ items, ∀ d : Traversal α, (∀ x ∈ order, x ∈ d.order) →
      Entered succ [c] d.order (visit d c).order) (hd : ∀ x ∈ order, x ∈ d.order) :
    Entered succ items d.order (items.foldl (Traversal.follow visit v) d).order := by
  induction items generalizing d with
  | nil => exact .nil
  | cons c items ih =>
    have hone := hvisit c List.mem_cons_self d hd
    obtain ⟨new, hnew⟩ := hone.grows
    refine hone.cons ?_
    rw [List.foldl_cons]
    apply ih (d := Traversal.follow visit v d c) fun c hc => hvisit c (List.mem_cons_of_mem _ hc)
    intro x hx
    exact show x ∈ (visit d c).order from hnew ▸ List.mem_append_left _ (hd x hx)

/-- **What a traversal adds** to the order, with fuel for every node that was not entered. -/
theorem traverseFrom_entered (hsucc : ∀ a, ∀ b ∈ succ a, b ∈ all) (hv : v ∈ all)
    (hfuel : (all.filter (· ∉ d.order)).card ≤ fuel) :
    Entered succ [v] d.order (traverseFrom succ fuel d v).order := by
  induction fuel generalizing d v with
  | zero =>
    by_cases hin : v ∈ d.order
    · exact .seen hin
    · have hlt := card_unentered_concat_lt hv hin
      omega
  | succ fuel ih =>
    unfold traverseFrom
    split_ifs with hin
    · exact .seen hin
    · have hlt := card_unentered_concat_lt hv hin
      have hvisit : ∀ c ∈ succ v, ∀ d' : Traversal α, (∀ x ∈ d.order ++ [v], x ∈ d'.order) →
          Entered succ [c] d'.order (traverseFrom succ fuel d' c).order := by
        intro c hc d' hd'
        apply ih (hsucc v c hc)
        have hle : (all.filter (· ∉ d'.order)).card ≤ (all.filter (· ∉ d.order ++ [v])).card :=
          card_unentered_le hd'
        omega
      exact .enter hin (@foldl_follow_entered α succ (d.order ++ [v]) (succ v) v
        ⟨d.order ++ [v], d.log⟩ _ hvisit fun _ hx => hx)

variable (hsucc : ∀ a, ∀ b ∈ succ a, b ∈ all) (hv : v ∈ all) (hfuel : all.card ≤ fuel)
include hsucc hv hfuel

theorem traverseFrom_entered_nil :
    Entered succ [v] [] (traverseFrom succ fuel ⟨[], []⟩ v).order :=
  @traverseFrom_entered α succ v _ all fuel ⟨[], []⟩ hsucc hv
    ((Finset.card_filter_le _ _).trans hfuel)

theorem nodup_traverseFrom : (traverseFrom succ fuel ⟨[], []⟩ v).order.Nodup :=
  (traverseFrom_entered_nil hsucc hv hfuel).nodup List.nodup_nil

/-- Every node that is entered is entered on a path that goes forward. -/
theorem forward_traverseFrom (hx : x ∈ (traverseFrom succ fuel ⟨[], []⟩ v).order) :
    Relation.ReflTransGen (Forward succ (traverseFrom succ fuel ⟨[], []⟩ v).order) v x := by
  obtain ⟨c, hc, -, hpath⟩ :=
    (traverseFrom_entered_nil hsucc hv hfuel).path x hx List.not_mem_nil
  exact List.mem_singleton.mp hc ▸ hpath

/-- **The nodes that are entered** are those that can be reached. -/
theorem mem_traverseFrom_iff :
    x ∈ (traverseFrom succ fuel ⟨[], []⟩ v).order ↔ Reach succ v x := by
  have hentered := traverseFrom_entered_nil hsucc hv hfuel
  constructor
  · intro hx
    exact Relation.ReflTransGen.mono (fun _ _ hab => hab.1) v x
      (forward_traverseFrom hsucc hv hfuel hx)
  · intro hreach
    induction hreach with
    | refl => exact hentered.met v (List.mem_singleton_self v)
    | tail _ hedge ih => exact hentered.closed _ ih List.not_mem_nil _ hedge

end Traverse

end ComponentSearch
