import Mathlib.Data.ENat.Basic
import Mathlib.Logic.Relation
import N8n.Foundations.Failure
import N8n.Foundations.OrderedMap
import N8n.Foundations.Remaining

/-!
# Searching with a path and a memo

A depth-first search collects the nodes that a start leads to within a number of hops. It does not
go on to a node on its current path, and it keeps what it has collected for a node and a number of
hops left in a memo, although that leaves out the nodes that were on the path at the time. At the
start nothing is missing: a node on the path has been met with more hops left.

## Main definitions

* `Budget`: numbers of hops left, some of them unlimited
* `collect`: the search, over nodes that may fail to be looked at
* `Hops`: a walk of a number of steps

## Main results

* `collect_sound`: what is collected is within the hops, each node once, and never the start
* `collect_complete`: everything within the hops is collected
* `exists_collect`: the search ends, and fails only at a node that it has to look at
* `collect_ordered`: without cycles and limit, every node comes before those that lead to it
-/

namespace MemoSearch

/-- Numbers of hops left. -/
structure Budget (κ : Type) where
  spent : κ → Bool
  next : κ → κ
  hops : κ → ℕ∞
  spent_iff : ∀ k, spent k = true ↔ hops k = 0
  hops_next : ∀ k, spent k = false → hops (next k) + 1 = hops k

/-! ## Walks -/

section Walks

variable {ε κ ν : Type} (look : ν → Except ε (Option (List ν)))

/-- There is a connection to follow from `a` to `b`. -/
def Step (a b : ν) : Prop := ∃ children, look a = .ok (some children) ∧ b ∈ children

/-- A walk of a number of steps. -/
inductive Hops (r : ν → ν → Prop) (a : ν) : ℕ → ν → Prop
  | here : Hops r a 0 a
  | further {n : ℕ} {b c : ν} : Hops r a n b → r b c → Hops r a (n + 1) c

variable {look} {B : Budget κ} {k : κ} {node start : ν}

theorem Hops.head {r : ν → ν → Prop} {a b c : ν} {n : ℕ} (hab : r a b) (h : Hops r b n c) :
    Hops r a (n + 1) c := by
  induction h with
  | here => exact .further .here hab
  | further _ hstep ih => exact ih.further hstep

theorem hops_pos (h : B.spent k = false) : 1 ≤ B.hops k := by
  rw [← B.hops_next k h]
  exact le_add_self

theorem hops_next_le (h : B.spent k = false) : B.hops (B.next k) ≤ B.hops k := by
  rw [← B.hops_next k h]
  exact le_self_add

/-- Each node that was collected is within the hops, once, and it is not the start. -/
structure Sound (look : ν → Except ε (Option (List ν))) (B : Budget κ) (start : ν) (k : κ)
    (node : ν) (found : List ν) : Prop where
  nodup : found.Nodup
  within : ∀ v ∈ found, ∃ n : ℕ, 1 ≤ n ∧ (n : ℕ∞) ≤ B.hops k ∧ Hops (Step look) node n v
  avoids : start ∉ found

theorem Sound.nil : Sound look B start k node [] :=
  ⟨List.nodup_nil, fun _ h => absurd h List.not_mem_nil, List.not_mem_nil⟩

end Walks

section Lists

variable {ε κ ν : Type} [DecidableEq ν] {added nodes : List ν}

/-! ## Lists in front -/

def moveToFront (nodes : List ν) (node : ν) : List ν := node :: nodes.erase node

/-- Put some nodes in front, in their order. -/
def prepend (added nodes : List ν) : List ν :=
  added.foldr (fun node nodes => moveToFront nodes node) nodes

theorem mem_moveToFront {a b : ν} : a ∈ moveToFront nodes b ↔ a = b ∨ a ∈ nodes := by
  by_cases hab : a = b
  · simp [moveToFront, hab]
  · simp [moveToFront, hab, List.mem_erase_of_ne]

theorem mem_prepend {a : ν} : a ∈ prepend added nodes ↔ a ∈ added ∨ a ∈ nodes := by
  induction added with
  | nil => simp [prepend]
  | cons b added ih =>
    rw [prepend, List.foldr_cons, ← prepend, mem_moveToFront, ih, List.mem_cons, or_assoc]

theorem nodup_moveToFront (h : nodes.Nodup) (a : ν) : (moveToFront nodes a).Nodup :=
  List.nodup_cons.mpr ⟨h.not_mem_erase, h.erase a⟩

theorem nodup_prepend (h : nodes.Nodup) (added : List ν) : (prepend added nodes).Nodup := by
  induction added with
  | nil => exact h
  | cons a added ih => exact nodup_moveToFront ih a

/-- Different nodes come in front as they are. -/
theorem prepend_eq (hadded : added.Nodup) (hnodes : nodes.Nodup) :
    prepend added nodes = added ++ nodes.filter (· ∉ added) := by
  induction added with
  | nil => simp [prepend]
  | cons a added ih =>
    obtain ⟨ha, hadded⟩ := List.nodup_cons.mp hadded
    rw [prepend, List.foldr_cons, ← prepend, moveToFront, ih hadded, List.erase_append_right _ ha,
      List.Nodup.erase_eq_filter (hnodes.filter _), List.filter_filter, List.cons_append]
    congr 2
    apply List.filter_congr
    intro b _
    by_cases hba : b = a <;> simp [hba]

abbrev Memo (κ ν : Type) := OrderedMap (κ × ν) (List ν)

def visit (call : ν → Memo κ ν → Except ε (List ν × Memo κ ν)) (path : List ν)
    (s : List ν × Memo κ ν) (child : ν) : Except ε (List ν × Memo κ ν) :=
  if child ∈ path then .ok s
  else do
    let added ← call child s.2
    pure (prepend added.1 (moveToFront s.1 child), added.2)

/-- A child on the path is passed over, the others are called. -/
theorem visit_eq_ok {call : ν → Memo κ ν → Except ε (List ν × Memo κ ν)} {path : List ν}
    {s t : List ν × Memo κ ν} {child : ν} (h : visit call path s child = .ok t) :
    child ∈ path ∧ t = s ∨
      child ∉ path ∧ ∃ added, call child s.2 = .ok (added, t.2) ∧
        t.1 = prepend added (moveToFront s.1 child) := by
  unfold visit at h
  split at h
  case isTrue hin => exact .inl ⟨hin, (Except.ok.inj h).symm⟩
  case isFalse hnot =>
    obtain ⟨added, hcall, h⟩ := Failure.bind_eq_ok.mp h
    cases h
    exact .inr ⟨hnot, added.1, hcall, rfl⟩

variable {look : ν → Except ε (Option (List ν))} {B : Budget κ} {k : κ} {node start child : ν}
  {found : List ν}

/-- What was collected for a child is one step further from the node. -/
theorem Sound.prepend (h : Sound look B start k node found) (hspent : B.spent k = false)
    (hstep : Step look node child) (hne : start ≠ child) {added : List ν}
    (hadded : Sound look B start (B.next k) child added) :
    Sound look B start k node (prepend added (moveToFront found child)) := by
  refine ⟨nodup_prepend (nodup_moveToFront h.nodup child) added, ?_, ?_⟩
  · intro v hv
    rcases mem_prepend.mp hv with hin | hv
    · obtain ⟨n, -, hle, hwalk⟩ := hadded.within v hin
      refine ⟨n + 1, Nat.le_add_left 1 n, ?_, hwalk.head hstep⟩
      rw [← B.hops_next k hspent, Nat.cast_add, Nat.cast_one]
      gcongr
    · rcases mem_moveToFront.mp hv with rfl | hv
      · exact ⟨1, le_rfl, hops_pos hspent, .further .here hstep⟩
      · exact h.within v hv
  · rw [mem_prepend, mem_moveToFront]
    rintro (hin | heq | hin)
    exacts [hadded.avoids hin, hne heq, h.avoids hin]

/-- A loop over children succeeds if the calls do. -/
theorem exists_visits {call : ν → Memo κ ν → Except ε (List ν × Memo κ ν)} {path children : List ν}
    (h : ∀ child ∈ children, child ∉ path → ∀ memo, ∃ r, call child memo = .ok r)
    (s : List ν × Memo κ ν) : ∃ t, children.foldlM (visit call path) s = .ok t := by
  refine Failure.exists_foldlM (fun child hchild s => ?_) s
  unfold visit
  split
  case isTrue => exact ⟨s, rfl⟩
  case isFalse hnot =>
    obtain ⟨r, hr⟩ := h child hchild hnot s.2
    rw [hr]
    exact ⟨_, rfl⟩

end Lists

section Search

variable {ε κ ν : Type} [DecidableEq κ] [DecidableEq ν] (exhausted : ε)
  (look : ν → Except ε (Option (List ν))) (B : Budget κ)

/-! ## The search -/

/-- `fuel` bounds the depth of the recursion. -/
def collect : ℕ → κ → ν → List ν → Memo κ ν → Except ε (List ν × Memo κ ν)
  | 0, _, _, _, _ => .error exhausted
  | fuel + 1, k, node, path, memo =>
    if B.spent k then .ok ([], memo)
    else do
      match ← look node with
      | none => pure ([], memo)
      | some children =>
        match memo.get? (k, node) with
        | some cached => pure (cached, memo)
        | none =>
          let found ← children.foldlM
            (visit (fun child => collect fuel (B.next k) child (node :: path)) (node :: path))
            ([], memo)
          pure (found.1, found.2.set (k, node) found.1)

/-- What a call that succeeded has done. -/
inductive Called (fuel : ℕ) (k : κ) (node : ν) (path : List ν) (memo : Memo κ ν) :
    List ν → Memo κ ν → Prop
  | spent (h : B.spent k = true) : Called fuel k node path memo [] memo
  | leaf (h : B.spent k = false) (hlook : look node = .ok none) :
      Called fuel k node path memo [] memo
  | known {children found : List ν} (h : B.spent k = false)
      (hlook : look node = .ok (some children)) (hget : memo.get? (k, node) = some found) :
      Called fuel k node path memo found memo
  | fresh {children found : List ν} {memo' : Memo κ ν} (h : B.spent k = false)
      (hlook : look node = .ok (some children)) (hget : memo.get? (k, node) = none)
      (hrun : children.foldlM (visit
        (fun child => collect exhausted look B fuel (B.next k) child (node :: path)) (node :: path))
        ([], memo) = .ok (found, memo')) :
      Called fuel k node path memo found (memo'.set (k, node) found)

variable {exhausted look B} {fuel : ℕ} {k : κ} {node start child : ν} {path found : List ν}
  {memo memo' : Memo κ ν} {way way' : List (κ × ν)} {s : List ν × Memo κ ν}
  {seen seen' : ν → Prop}

theorem called_of_collect
    (h : collect exhausted look B (fuel + 1) k node path memo = .ok (found, memo')) :
    Called exhausted look B fuel k node path memo found memo' := by
  rw [collect] at h
  split at h
  case isTrue hspent =>
    obtain ⟨rfl, rfl⟩ := Prod.mk.inj (Except.ok.inj h)
    exact .spent hspent
  case isFalse hspent =>
    have hspent : B.spent k = false := Bool.eq_false_iff.mpr hspent
    obtain ⟨o, hlook, h⟩ := Failure.bind_eq_ok.mp h
    cases o with
    | none =>
      obtain ⟨rfl, rfl⟩ := Prod.mk.inj (Except.ok.inj h)
      exact .leaf hspent hlook
    | some children =>
      dsimp only at h
      split at h
      case h_1 cached hget =>
        obtain ⟨rfl, rfl⟩ := Prod.mk.inj (Except.ok.inj h)
        exact .known hspent hlook hget
      case h_2 hget =>
        obtain ⟨s, hrun, h⟩ := Failure.bind_eq_ok.mp h
        obtain ⟨rfl, rfl⟩ := Prod.mk.inj (Except.ok.inj h)
        exact .fresh hspent hlook hget hrun

/-! ## What is collected -/

def MemoSound (look : ν → Except ε (Option (List ν))) (B : Budget κ) (start : ν)
    (memo : Memo κ ν) : Prop :=
  ∀ e found, memo.get? e = some found → Sound look B start e.1 e.2 found

theorem MemoSound.set (h : MemoSound look B start memo) (hfound : Sound look B start k node found) :
    MemoSound look B start (memo.set (k, node) found) := by
  intro e found' hget
  by_cases he : e = (k, node)
  · subst he
    rw [OrderedMap.get?_set_self] at hget
    cases hget
    exact hfound
  · rw [OrderedMap.get?_set_of_ne he] at hget
    exact h e found' hget

/-- **Nothing else is collected.** -/
theorem collect_sound (h : collect exhausted look B fuel k node path memo = .ok (found, memo'))
    (hstart : start ∈ node :: path) (hmemo : MemoSound look B start memo) :
    Sound look B start k node found ∧ MemoSound look B start memo' := by
  induction fuel generalizing k node path memo found memo' with
  | zero => cases h
  | succ fuel ih =>
    cases called_of_collect h with
    | spent => exact ⟨.nil, hmemo⟩
    | leaf => exact ⟨.nil, hmemo⟩
    | known _ _ hget => exact ⟨hmemo _ _ hget, hmemo⟩
    | @fresh children _ memo' hspent hlook hget hrun =>
      have hloop := Failure.foldlM_invariant (I := fun _ s =>
        Sound look B start k node s.1 ∧ MemoSound look B start s.2) hrun ⟨.nil, hmemo⟩
        (by
          rintro done child s t hchild ⟨hfound, hmemo⟩ hvisit
          rcases visit_eq_ok hvisit with ⟨-, rfl⟩ | ⟨hnot, added, hcall, heq⟩
          · exact ⟨hfound, hmemo⟩
          · obtain ⟨hadded, hmemo⟩ := ih hcall (List.mem_cons_of_mem _ hstart) hmemo
            refine ⟨heq ▸ hfound.prepend hspent ⟨children, hlook, hchild⟩ ?_ hadded, hmemo⟩
            exact fun heq => hnot (heq ▸ hstart))
      exact ⟨hloop.1, hloop.2.set hloop.1⟩

/-! ## What is missing from the memo -/

/-- The node was met with that number of hops left: it is on the path, or known, or there was
nothing to collect for it and it is in a list that is known. -/
def Settled (look : ν → Except ε (Option (List ν))) (B : Budget κ) (way : List (κ × ν))
    (memo : Memo κ ν) (seen : ν → Prop) (e : κ × ν) : Prop :=
  e ∈ way ∨ (∃ found, memo.get? e = some found) ∨
    (B.spent e.1 = true ∨ look e.2 = .ok none) ∧ seen e.2

/-- It was met with at least as many hops left. -/
def Met (look : ν → Except ε (Option (List ν))) (B : Budget κ) (way : List (κ × ν))
    (memo : Memo κ ν) (seen : ν → Prop) (k : κ) (v : ν) : Prop :=
  ∃ k', B.hops k ≤ B.hops k' ∧ Settled look B way memo seen (k', v)

def Listed (memo : Memo κ ν) (v : ν) : Prop := ∃ e found, memo.get? e = some found ∧ v ∈ found

/-- Each known node had connections to follow, and the nodes that they lead to were met. -/
def Followed (look : ν → Except ε (Option (List ν))) (B : Budget κ) (way : List (κ × ν))
    (memo : Memo κ ν) : Prop :=
  ∀ e found, memo.get? e = some found → B.spent e.1 = false ∧
    (∃ children, look e.2 = .ok (some children)) ∧
    ∀ v, Step look e.2 v → Met look B way memo (Listed memo) (B.next e.1) v

/-- What a call adds to the memo is in what it collects. -/
structure Grows (path : List ν) (names found : List ν) (memo memo' : Memo κ ν) : Prop where
  keeps : ∀ e known, memo.get? e = some known → memo'.get? e = some known
  adds : ∀ e known, memo'.get? e = some known → memo.get? e = some known ∨
    e.2 ∉ path ∧ e.2 ∈ names ∧ known ⊆ found

theorem Settled.mono {e : κ × ν} (h : Settled look B way memo seen e)
    (hway : e ∈ way → Settled look B way' memo' seen' e)
    (hmemo : ∀ found, memo.get? e = some found → ∃ found, memo'.get? e = some found)
    (hseen : seen e.2 → seen' e.2) : Settled look B way' memo' seen' e := by
  rcases h with hin | ⟨found, hget⟩ | ⟨hleaf, hin⟩
  · exact hway hin
  · exact .inr (.inl (hmemo found hget))
  · exact .inr (.inr ⟨hleaf, hseen hin⟩)

theorem Met.mono {v : ν} (h : Met look B way memo seen k v)
    (hway : ∀ k', (k', v) ∈ way → Settled look B way' memo' seen' (k', v))
    (hmemo : ∀ e found, memo.get? e = some found → ∃ found, memo'.get? e = some found)
    (hseen : seen v → seen' v) : Met look B way' memo' seen' k v := by
  obtain ⟨k', hle, hsettled⟩ := h
  exact ⟨k', hle, hsettled.mono (hway k') (hmemo _) hseen⟩

theorem Grows.refl {path names : List ν} : Grows path names found memo memo :=
  ⟨fun _ _ h => h, fun _ _ h => .inl h⟩

/-- A call, and the state of the loop that it is made from. -/
structure Visited (look : ν → Except ε (Option (List ν))) (B : Budget κ) (k : κ) (node : ν)
    (way : List (κ × ν)) (memo : Memo κ ν) (done : List ν) (s : List ν × Memo κ ν) : Prop where
  grows : Grows (node :: way.map Prod.snd) s.1 s.1 memo s.2
  followed : Followed look B ((k, node) :: way) s.2
  met : ∀ child ∈ done, Met look B ((k, node) :: way) s.2 (· ∈ s.1) (B.next k) child

theorem Visited.init (hmemo : Followed look B way memo) :
    Visited look B k node way memo [] ([], memo) := by
  refine ⟨.refl, ?_, fun _ h => absurd h List.not_mem_nil⟩
  intro e known hget
  obtain ⟨hspent, hlook, hmet⟩ := hmemo e known hget
  refine ⟨hspent, hlook, fun v hstep => (hmet v hstep).mono ?_ (fun _ known h => ⟨known, h⟩) id⟩
  exact fun k' hin => .inl (List.mem_cons_of_mem _ hin)

/-- A child on the path was met with more hops left. -/
theorem Visited.passOver {done : List ν} (h : Visited look B k node way memo done s)
    (hspent : B.spent k = false) (hway : ∀ e ∈ way, B.hops k ≤ B.hops e.1)
    (hchild : child ∈ node :: way.map Prod.snd) :
    Visited look B k node way memo (done ++ [child]) s := by
  refine ⟨h.grows, h.followed, ?_⟩
  intro c hc
  rcases List.mem_append.mp hc with hc | hc
  · exact h.met c hc
  · obtain rfl := List.mem_singleton.mp hc
    rw [← List.map_cons (f := Prod.snd) (a := (k, node))] at hchild
    obtain ⟨e, he, rfl⟩ := List.mem_map.mp hchild
    refine ⟨e.1, (hops_next_le hspent).trans ?_, .inl he⟩
    rcases List.mem_cons.mp he with rfl | he
    · exact le_rfl
    · exact hway e he

/-- A child that was called is settled. -/
theorem Visited.call {done added : List ν} {s t : List ν × Memo κ ν}
    (h : Visited look B k node way memo done s)
    (hgrows : Grows (node :: way.map Prod.snd) (child :: added) added s.2 t.2)
    (hfollowed : Followed look B ((k, node) :: way) t.2)
    (hchild : B.spent (B.next k) = true ∨ look child = .ok none ∨
      t.2.get? (B.next k, child) = some added)
    (ht : t.1 = prepend added (moveToFront s.1 child)) :
    Visited look B k node way memo (done ++ [child]) t := by
  have hmem (v : ν) : v ∈ t.1 ↔ v ∈ added ∨ v = child ∨ v ∈ s.1 := by
    rw [ht, mem_prepend, mem_moveToFront]
  have hold : s.1 ⊆ t.1 := fun v hv => (hmem v).mpr (.inr (.inr hv))
  refine ⟨⟨?_, ?_⟩, hfollowed, ?_⟩
  · exact fun e known hget => hgrows.keeps e known (h.grows.keeps e known hget)
  · intro e known hget
    rcases hgrows.adds e known hget with hget | ⟨hpath, hname, hsub⟩
    · rcases h.grows.adds e known hget with hget | ⟨hpath, hname, hsub⟩
      · exact .inl hget
      · exact .inr ⟨hpath, hold hname, fun v hv => hold (hsub hv)⟩
    · refine .inr ⟨hpath, (hmem _).mpr ?_, fun v hv => (hmem v).mpr (.inl (hsub hv))⟩
      rcases List.mem_cons.mp hname with heq | hin
      exacts [.inr (.inl heq), .inl hin]
  · intro c hc
    rcases List.mem_append.mp hc with hc | hc
    · refine (h.met c hc).mono (fun k' hin => .inl hin) ?_ fun hin => hold hin
      exact fun e known hget => ⟨known, hgrows.keeps e known hget⟩
    · obtain rfl := List.mem_singleton.mp hc
      refine ⟨B.next k, le_rfl, ?_⟩
      have hin : c ∈ t.1 := (hmem c).mpr (.inr (.inl rfl))
      rcases hchild with hleaf | hleaf | hget
      · exact .inr (.inr ⟨.inl hleaf, hin⟩)
      · exact .inr (.inr ⟨.inr hleaf, hin⟩)
      · exact .inr (.inl ⟨added, hget⟩)

/-- After the loop the node is known itself. -/
theorem Visited.close {children : List ν} (h : Visited look B k node way memo children s)
    (hspent : B.spent k = false) (hlook : look node = .ok (some children))
    (hget : memo.get? (k, node) = none) (hnew : node ∉ way.map Prod.snd) :
    Grows (way.map Prod.snd) (node :: s.1) s.1 memo (s.2.set (k, node) s.1) ∧
      Followed look B way (s.2.set (k, node) s.1) := by
  have hunknown : s.2.get? (k, node) = none := by
    cases hs : s.2.get? (k, node) with
    | none => rfl
    | some known =>
      rcases h.grows.adds _ _ hs with hold | ⟨hpath, -⟩
      · rw [hget] at hold
        cases hold
      · exact absurd List.mem_cons_self hpath
  have hself : (s.2.set (k, node) s.1).get? (k, node) = some s.1 := OrderedMap.get?_set_self
  have hkeep : ∀ e known, s.2.get? e = some known →
      (s.2.set (k, node) s.1).get? e = some known := by
    intro e known he
    rw [OrderedMap.get?_set_of_ne, he]
    rintro rfl
    rw [hunknown] at he
    cases he
  refine ⟨⟨fun e known he => hkeep e known (h.grows.keeps e known he), ?_⟩, ?_⟩
  · intro e known he
    by_cases hne : e = (k, node)
    · subst hne
      rw [hself] at he
      cases he
      exact .inr ⟨hnew, List.mem_cons_self, List.Subset.refl _⟩
    · rw [OrderedMap.get?_set_of_ne hne] at he
      refine (h.grows.adds e known he).imp_right fun ⟨hpath, hname, hsub⟩ => ?_
      exact ⟨fun hin => hpath (List.mem_cons_of_mem _ hin), List.mem_cons_of_mem _ hname, hsub⟩
  · -- the node leaves the path and enters the memo
    have hleave (v : ν) (k' : κ) (hin : (k', v) ∈ (k, node) :: way) :
        Settled look B way (s.2.set (k, node) s.1) (Listed (s.2.set (k, node) s.1)) (k', v) := by
      rcases List.mem_cons.mp hin with heq | hin
      · exact .inr (.inl ⟨s.1, heq ▸ hself⟩)
      · exact .inl hin
    intro e known he
    by_cases hne : e = (k, node)
    · subst hne
      refine ⟨hspent, ⟨children, hlook⟩, fun v hstep => ?_⟩
      obtain ⟨children', hlook', hv⟩ := hstep
      obtain rfl := Option.some.inj (Except.ok.inj (hlook.symm.trans hlook'))
      refine (h.met v hv).mono (hleave v) (fun e known he => ⟨known, hkeep e known he⟩) ?_
      exact fun hin => ⟨_, s.1, hself, hin⟩
    · rw [OrderedMap.get?_set_of_ne hne] at he
      obtain ⟨hspent', hlook', hmet⟩ := h.followed e known he
      refine ⟨hspent', hlook', fun v hstep => ?_⟩
      refine (hmet v hstep).mono (hleave v) (fun e known he => ⟨known, hkeep e known he⟩) ?_
      exact fun ⟨e, known, he, hin⟩ => ⟨e, known, hkeep e known he, hin⟩

/-- **What a call does to the memo**: it knows the node afterwards, unless there is nothing to
collect for it. -/
theorem collect_grows {W : List (κ × ν)}
    (h : collect exhausted look B fuel k node (W.map Prod.snd) memo = .ok (found, memo'))
    (hnew : node ∉ W.map Prod.snd) (hway : ∀ e ∈ W, B.hops k ≤ B.hops e.1)
    (hmemo : Followed look B W memo) :
    Grows (W.map Prod.snd) (node :: found) found memo memo' ∧ Followed look B W memo' ∧
      (B.spent k = true ∨ look node = .ok none ∨ memo'.get? (k, node) = some found) := by
  induction fuel generalizing k node W memo found memo' with
  | zero => cases h
  | succ fuel ih =>
    cases called_of_collect h with
    | spent hspent => exact ⟨.refl, hmemo, .inl hspent⟩
    | leaf _ hlook => exact ⟨.refl, hmemo, .inr (.inl hlook)⟩
    | known _ _ hget => exact ⟨.refl, hmemo, .inr (.inr hget)⟩
    | @fresh children _ memo' hspent hlook hget hrun =>
      have hway' : ∀ e ∈ (k, node) :: W, B.hops (B.next k) ≤ B.hops e.1 := by
        intro e he
        refine (hops_next_le hspent).trans ?_
        rcases List.mem_cons.mp he with rfl | he
        exacts [le_rfl, hway e he]
      have hloop := Failure.foldlM_invariant (I := Visited look B k node W memo) hrun
        (.init hmemo) (by
          intro done child s t hchild hvisited hvisit
          rcases visit_eq_ok hvisit with ⟨hin, rfl⟩ | ⟨hnot, added, hcall, heq⟩
          · exact hvisited.passOver hspent hway hin
          · obtain ⟨hgrows, hfollowed, hknown⟩ :=
              ih (W := (k, node) :: W) hcall hnot hway' hvisited.followed
            exact hvisited.call hgrows hfollowed hknown heq)
      obtain ⟨hgrows, hfollowed⟩ := hloop.close hspent hlook hget hnew
      exact ⟨hgrows, hfollowed, .inr (.inr OrderedMap.get?_set_self)⟩

/-- A node within the hops was met with the hops that are left there. -/
theorem met_of_hops (hmemo : Followed look B [] memo)
    (hstart : ∃ found, memo.get? (k, start) = some found) {n : ℕ} {v : ν}
    (h : Hops (Step look) start n v) (hle : (n : ℕ∞) ≤ B.hops k) :
    ∃ k', B.hops k ≤ B.hops k' + n ∧ Settled look B [] memo (Listed memo) (k', v) := by
  induction h with
  | here => exact ⟨k, le_self_add, .inr (.inl hstart)⟩
  | @further n u v _ hstep ih =>
    have hlt : (n : ℕ∞) + 1 ≤ B.hops k := by exact_mod_cast hle
    obtain ⟨k', hk', hsettled⟩ := ih (le_self_add.trans hlt)
    have hleft : B.spent k' = false := by
      rw [Bool.eq_false_iff]
      intro hspent
      rw [(B.spent_iff k').mp hspent, zero_add] at hk'
      have hlast : ((n + 1 : ℕ) : ℕ∞) ≤ n := hle.trans hk'
      exact absurd (Nat.cast_le.mp hlast) (Nat.not_succ_le_self n)
    obtain ⟨found, hget⟩ : ∃ found, memo.get? (k', u) = some found := by
      rcases hsettled with hin | hknown | ⟨hleaf | hleaf, -⟩
      · exact absurd hin List.not_mem_nil
      · exact hknown
      · rw [hleft] at hleaf
        cases hleaf
      · obtain ⟨children, hlook, -⟩ := hstep
        cases hlook.symm.trans hleaf
    obtain ⟨k'', hnext, hsettled'⟩ := (hmemo _ _ hget).2.2 v hstep
    refine ⟨k'', hk'.trans ?_, hsettled'⟩
    rw [← B.hops_next k' hleft, Nat.cast_add, Nat.cast_one, add_assoc, add_comm (1 : ℕ∞)]
    gcongr

/-- **Everything within the hops is collected**, and every node was looked at from which the search
could go on. -/
theorem collect_complete
    (h : collect exhausted look B fuel k start [] .empty = .ok (found, memo')) {n : ℕ} {v : ν}
    (hwalk : Hops (Step look) start n v) :
    ((n : ℕ∞) ≤ B.hops k → v ≠ start → v ∈ found) ∧
      ((n : ℕ∞) < B.hops k → ∃ children, look v = .ok children) := by
  obtain ⟨hgrows, hfollowed, hstart⟩ := collect_grows (W := []) h List.not_mem_nil
    (fun _ he => absurd he List.not_mem_nil) (fun _ _ hget => by cases hget)
  have hadds (e : κ × ν) (known : List ν) (hget : memo'.get? e = some known) :
      e.2 ∈ start :: found ∧ known ⊆ found := by
    rcases hgrows.adds e known hget with hempty | ⟨-, hname, hsub⟩
    · cases hempty
    · exact ⟨hname, hsub⟩
  rcases hstart with hspent | hleaf | hget
  · -- no hop is left at the start
    rw [(B.spent_iff k).mp hspent]
    refine ⟨fun hle hne => ?_, fun hlt => absurd hlt not_lt_zero⟩
    cases hwalk with
    | here => exact absurd rfl hne
    | further => exact absurd hle (by simp)
  · -- there is nothing to follow at the start
    have hhere : v = start := by
      induction hwalk with
      | here => rfl
      | further _ hstep ih =>
        obtain ⟨children, hlook, -⟩ := hstep
        rw [ih] at hlook
        cases hlook.symm.trans hleaf
    exact ⟨fun _ hne => absurd hhere hne, fun _ => ⟨none, hhere ▸ hleaf⟩⟩
  · constructor
    · intro hle hne
      obtain ⟨k', -, hin | ⟨known, hknown⟩ | ⟨-, e, known, hknown, hin⟩⟩ :=
        met_of_hops hfollowed ⟨found, hget⟩ hwalk hle
      · exact absurd hin List.not_mem_nil
      · exact (List.mem_cons.mp (hadds _ _ hknown).1).resolve_left hne
      · exact (hadds _ _ hknown).2 hin
    · intro hlt
      obtain ⟨k', hk', hin | ⟨known, hknown⟩ | ⟨hspent | hleaf, -⟩⟩ :=
        met_of_hops hfollowed ⟨found, hget⟩ hwalk hlt.le
      · exact absurd hin List.not_mem_nil
      · obtain ⟨children, hlook⟩ := (hfollowed _ _ hknown).2.1
        exact ⟨some children, hlook⟩
      · rw [(B.spent_iff k').mp hspent, zero_add] at hk'
        exact absurd hlt (not_lt_of_ge hk')
      · exact ⟨none, hleaf⟩

/-! ## The end of the search -/

/-- **The search ends**, and does not fail where no node does from which it could go on. -/
theorem exists_collect {all : Finset ν}
    (hall : ∀ v children, look v = .ok (some children) → v ∈ all)
    (hfuel : (all.filter (· ∉ path)).card < fuel) (hnew : node ∉ path)
    (hlook : ∀ (n : ℕ) v, Hops (Step look) node n v → (n : ℕ∞) < B.hops k →
      ∃ children, look v = .ok children) :
    ∃ r, collect exhausted look B fuel k node path memo = .ok r := by
  induction fuel generalizing k node path memo with
  | zero => exact absurd hfuel (Nat.not_lt_zero _)
  | succ fuel ih =>
    rw [collect]
    split
    case isTrue => exact ⟨_, rfl⟩
    case isFalse hspent =>
      have hspent : B.spent k = false := Bool.eq_false_iff.mpr hspent
      obtain ⟨o, ho⟩ := hlook 0 node .here (lt_of_lt_of_le zero_lt_one (hops_pos hspent))
      rw [ho]
      cases o with
      | none => exact ⟨_, rfl⟩
      | some children =>
        cases hget : memo.get? (k, node) with
        | some cached => exact ⟨(cached, memo), by simp [bind, Except.bind, pure, Except.pure]⟩
        | none =>
          have hleft : (all.filter (· ∉ node :: path)).card < (all.filter (· ∉ path)).card := by
            apply Remaining.card_lt_of_seen _ (hall node children ho) hnew
            · exact not_not_intro List.mem_cons_self
            · exact fun v hv hin => hv (List.mem_cons_of_mem _ hin)
          have hcalls : ∀ child ∈ children, child ∉ node :: path → ∀ memo, ∃ r,
              collect exhausted look B fuel (B.next k) child (node :: path) memo = .ok r := by
            intro child hchild hnot memo
            refine ih (by omega) hnot fun n v hwalk hlt => ?_
            refine hlook (n + 1) v (hwalk.head ⟨children, ho, hchild⟩) ?_
            rw [← B.hops_next k hspent, Nat.cast_add, Nat.cast_one]
            exact (ENat.add_lt_add_iff_right (by simp)).mpr hlt
          obtain ⟨t, ht⟩ := exists_visits hcalls ([], memo)
          refine ⟨(t.1, t.2.set (k, node) t.1), ?_⟩
          simp [ht, bind, Except.bind, pure, Except.pure]

/-! ## Without cycles -/

/-- All nodes that a node leads to, each before those that lead to it. -/
structure Ordered (look : ν → Except ε (Option (List ν))) (node : ν) (found : List ν) : Prop where
  nodup : found.Nodup
  ordered : found.Pairwise fun a b => ¬ Relation.TransGen (Step look) a b
  mem_iff : ∀ v, v ∈ found ↔ Relation.TransGen (Step look) node v

/-- The same for the children of a node that are done. -/
structure OrderedFrom (look : ν → Except ε (Option (List ν))) (done : List ν) (found : List ν) :
    Prop where
  nodup : found.Nodup
  ordered : found.Pairwise fun a b => ¬ Relation.TransGen (Step look) a b
  mem_iff : ∀ v, v ∈ found ↔ ∃ child ∈ done, Relation.ReflTransGen (Step look) child v

/-- What a child leads to comes in front of it, and both in front of the rest. -/
theorem OrderedFrom.prepend (hacyclic : ∀ v, ¬ Relation.TransGen (Step look) v v) {done : List ν}
    (h : OrderedFrom look done found) {added : List ν} (hadded : Ordered look child added) :
    OrderedFrom look (done ++ [child]) (prepend added (moveToFront found child)) := by
  have hnodup := nodup_moveToFront h.nodup child
  refine ⟨nodup_prepend hnodup added, ?_, ?_⟩
  · rw [prepend_eq hadded.nodup hnodup, List.pairwise_append]
    have hchild : child ∉ added := fun hin => hacyclic child ((hadded.mem_iff child).mp hin)
    refine ⟨hadded.ordered, ?_, ?_⟩
    · rw [moveToFront, List.filter_cons_of_pos (by simpa using hchild), List.pairwise_cons]
      refine ⟨?_, (h.ordered.sublist List.erase_sublist).sublist List.filter_sublist⟩
      intro b hb hlead
      have hnot := of_decide_eq_true (List.mem_filter.mp hb).2
      exact hnot ((hadded.mem_iff b).mpr hlead)
    · intro a ha b hb hlead
      have hnot := of_decide_eq_true (List.mem_filter.mp hb).2
      exact hnot ((hadded.mem_iff b).mpr (((hadded.mem_iff a).mp ha).trans hlead))
  · intro v
    rw [mem_prepend, mem_moveToFront, hadded.mem_iff, h.mem_iff]
    constructor
    · rintro (hlead | rfl | ⟨c, hc, hlead⟩)
      · exact ⟨child, by simp, hlead.to_reflTransGen⟩
      · exact ⟨v, by simp, .refl⟩
      · exact ⟨c, List.mem_append_left _ hc, hlead⟩
    · rintro ⟨c, hc, hlead⟩
      rcases List.mem_append.mp hc with hc | hc
      · exact .inr (.inr ⟨c, hc, hlead⟩)
      · obtain rfl := List.mem_singleton.mp hc
        rcases Relation.reflTransGen_iff_eq_or_transGen.mp hlead with rfl | hlead
        exacts [.inr (.inl rfl), .inl hlead]

/-- **Without cycles and limit** what a node leads to is collected in such an order that every node
comes before those that lead to it. -/
theorem collect_ordered (hacyclic : ∀ v, ¬ Relation.TransGen (Step look) v v)
    (h : collect exhausted look B fuel k node path memo = .ok (found, memo'))
    (hk : B.hops k = ⊤) (hpath : ∀ p ∈ path, Relation.TransGen (Step look) p node)
    (hmemo : ∀ e known, memo.get? e = some known → Ordered look e.2 known) :
    Ordered look node found ∧ ∀ e known, memo'.get? e = some known → Ordered look e.2 known := by
  induction fuel generalizing k node path memo found memo' with
  | zero => cases h
  | succ fuel ih =>
    cases called_of_collect h with
    | spent hspent =>
      rw [(B.spent_iff k).mp hspent] at hk
      cases hk
    | leaf _ hlook =>
      refine ⟨⟨List.nodup_nil, .nil, fun v => ⟨fun hin => absurd hin List.not_mem_nil, ?_⟩⟩, hmemo⟩
      intro hlead
      obtain ⟨c, ⟨children, hlook', -⟩, -⟩ := Relation.TransGen.head'_iff.mp hlead
      cases hlook.symm.trans hlook'
    | known _ _ hget => exact ⟨hmemo _ _ hget, hmemo⟩
    | @fresh children _ memo' hspent hlook hget hrun =>
      have hnext : B.hops (B.next k) = ⊤ := by
        have hsucc := B.hops_next k hspent
        rw [hk] at hsucc
        exact (ENat.add_eq_top.mp hsucc).resolve_right ENat.one_ne_top
      obtain ⟨hfound, hmemo⟩ := Failure.foldlM_invariant (I := fun done s =>
        OrderedFrom look done s.1 ∧ ∀ e known, s.2.get? e = some known → Ordered look e.2 known)
        hrun ⟨⟨List.nodup_nil, .nil, by simp⟩, hmemo⟩ (by
          rintro done child s t hchild ⟨hfound, hmemo⟩ hvisit
          have hstep : Step look node child := ⟨children, hlook, hchild⟩
          have hbelow : ∀ p ∈ node :: path, Relation.TransGen (Step look) p child := by
            intro p hp
            rcases List.mem_cons.mp hp with rfl | hp
            exacts [.single hstep, (hpath p hp).tail hstep]
          rcases visit_eq_ok hvisit with ⟨hin, -⟩ | ⟨-, added, hcall, heq⟩
          · exact absurd (hbelow child hin) (hacyclic child)
          · obtain ⟨hadded, hmemo⟩ := ih hcall hnext hbelow hmemo
            exact ⟨heq ▸ hfound.prepend hacyclic hadded, hmemo⟩)
      have hnode : Ordered look node found := by
        refine ⟨hfound.nodup, hfound.ordered, fun v => (hfound.mem_iff v).trans ?_⟩
        rw [Relation.TransGen.head'_iff]
        constructor
        · rintro ⟨c, hc, hlead⟩
          exact ⟨c, ⟨children, hlook, hc⟩, hlead⟩
        · rintro ⟨c, ⟨children', hlook', hc⟩, hlead⟩
          obtain rfl := Option.some.inj (Except.ok.inj (hlook.symm.trans hlook'))
          exact ⟨c, hc, hlead⟩
      refine ⟨hnode, fun e known he => ?_⟩
      by_cases hne : e = (k, node)
      · subst hne
        rw [OrderedMap.get?_set_self] at he
        cases he
        exact hnode
      · rw [OrderedMap.get?_set_of_ne hne] at he
        exact hmemo e known he

end Search

end MemoSearch
