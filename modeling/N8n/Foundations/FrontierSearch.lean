import Mathlib.Logic.Relation
import N8n.Foundations.OrderedSet
import N8n.Foundations.Remaining

/-!
# Searching for a frontier

A search goes along edges from a start until it meets nodes at which it stops, and returns these.
To end on cycles it remembers nodes it went through: those on its way from the start, or all nodes
it has met so far. Both return the frontier of the start. Looking at a node may fail.

## Main definitions

* `searchOnPath`: the search that remembers its way from the start
* `searchOnce`: the search that remembers all nodes it has met
* `Frontier`: the nodes at which a search from a start stops

## Main results

* `searchOnPath_spec`, `searchOnce_spec`: both searches end, and return the frontier
-/

namespace FrontierSearch

variable {ε : Type*} {α : Type}

section Search

variable [DecidableEq α] (exhausted : ε) (stops : α → Except ε Bool) (next : α → Except ε (List α))

/-- `fuel` bounds the depth of the recursion. -/
def searchOnPath : ℕ → OrderedSet α → OrderedSet α → α → Except ε (OrderedSet α)
  | 0, _, _, _ => .error exhausted
  | fuel + 1, seen, found, a => do
    if ← stops a then pure (found.insert a)
    else if a ∈ seen then pure found
    else
      let children ← next a
      children.foldlM (searchOnPath fuel (seen.insert a)) found

/-- The state is the nodes that were met and those that were found. -/
def searchOnce : ℕ → OrderedSet α × OrderedSet α → α → Except ε (OrderedSet α × OrderedSet α)
  | 0, _, _ => .error exhausted
  | fuel + 1, s, a => do
    if ← stops a then pure (s.1, s.2.insert a)
    else if a ∈ s.1 then pure s
    else
      let children ← next a
      children.foldlM (searchOnce fuel) (s.1.insert a, s.2)

end Search

/-! ## Frontiers -/

section Frontier

variable (stop : α → Prop) (succ : α → List α)

/-- An edge from a node at which the search does not stop. -/
def Onward (a b : α) : Prop := ¬ stop a ∧ b ∈ succ a

/-- The search stops at the node, and gets to it through nodes at which it does not. -/
def Frontier (start n : α) : Prop :=
  stop n ∧ Relation.ReflTransGen (Onward stop succ) start n

/-- The search gets to the node without going on from nodes of a set. -/
def FrontierOff (seen : OrderedSet α) (start n : α) : Prop :=
  stop n ∧ Relation.ReflTransGen (fun a b => a ∉ seen ∧ Onward stop succ a b) start n

end Frontier

variable {stop : α → Prop} {succ : α → List α} {a b n : α} {seen seen' : OrderedSet α}

theorem frontierOff_empty : FrontierOff stop succ .empty a n ↔ Frontier stop succ a n := by
  have hrel : (fun a b => a ∉ (OrderedSet.empty : OrderedSet α) ∧ Onward stop succ a b) =
      Onward stop succ := by
    ext a b
    exact and_iff_right OrderedSet.not_mem_empty
  rw [FrontierOff, hrel, Frontier]

theorem FrontierOff.of_stop (h : FrontierOff stop succ seen a n) (ha : stop a) : n = a := by
  obtain ⟨-, hpath⟩ := h
  rcases Relation.ReflTransGen.cases_head hpath with heq | ⟨b, ⟨-, hgo, -⟩, -⟩
  · exact heq.symm
  · exact absurd ha hgo

theorem FrontierOff.exists_child (h : FrontierOff stop succ seen a n) (ha : ¬ stop a) :
    a ∉ seen ∧ ∃ b ∈ succ a, FrontierOff stop succ seen b n := by
  obtain ⟨hn, hpath⟩ := h
  rcases Relation.ReflTransGen.cases_head hpath with rfl | ⟨b, ⟨hseen, -, hb⟩, hrest⟩
  · exact absurd hn ha
  · exact ⟨hseen, b, hb, hn, hrest⟩

/-- A path that meets `a` again can start at its last visit of `a`. -/
theorem FrontierOff.insert [DecidableEq α] (h : FrontierOff stop succ seen b n)
    (hb : b ∈ succ a) : ∃ c ∈ succ a, FrontierOff stop succ (seen.insert a) c n := by
  obtain ⟨hn, hpath⟩ := h
  have hcut : FrontierOff stop succ (seen.insert a) b n ∨
      ∃ c ∈ succ a, FrontierOff stop succ (seen.insert a) c n := by
    clear hb
    induction hpath using Relation.ReflTransGen.head_induction_on with
    | refl => exact .inl ⟨hn, .refl⟩
    | @head x y hxy _ ih =>
      rcases ih with hrest | hlater
      · by_cases hxa : x = a
        · exact .inr ⟨y, hxa ▸ hxy.2.2, hrest⟩
        · refine .inl ⟨hn, .head ⟨fun hin => ?_, hxy.2⟩ hrest.2⟩
          rcases OrderedSet.mem_insert.mp hin with heq | hold
          · exact hxa heq
          · exact hxy.1 hold
      · exact .inr hlater
  rcases hcut with hoff | hlater
  · exact ⟨b, hb, hoff⟩
  · exact hlater

theorem FrontierOff.of_insert [DecidableEq α] (h : FrontierOff stop succ (seen.insert a) b n)
    (hseen : a ∉ seen) (ha : ¬ stop a) (hb : b ∈ succ a) : FrontierOff stop succ seen a n := by
  have hmono : ∀ x y, x ∉ seen.insert a ∧ Onward stop succ x y → x ∉ seen ∧ Onward stop succ x y :=
    fun x y hxy => ⟨fun hin => hxy.1 (OrderedSet.mem_insert.mpr (.inr hin)), hxy.2⟩
  exact ⟨h.1, .head ⟨hseen, ha, hb⟩ (Relation.ReflTransGen.mono hmono b n h.2)⟩

/-- The search does not fail at the nodes a start leads to, and there are finitely many. -/
structure Searchable (stops : α → Except ε Bool) (next : α → Except ε (List α)) (stop : α → Prop)
    (succ : α → List α) (all : Finset α) : Prop where
  stops_eq : ∀ a ∈ all, ∃ b, stops a = .ok b ∧ (b = true ↔ stop a)
  next_eq : ∀ a ∈ all, next a = .ok (succ a)
  succ_mem : ∀ a ∈ all, ∀ b ∈ succ a, b ∈ all

/-! ## Searches from several nodes -/

section Several

variable {items : List α}

/-- Each search of a list adds what it finds. -/
theorem foldlM_adds {f : OrderedSet α → α → Except ε (OrderedSet α)} {adds : α → α → Prop}
    (h : ∀ b ∈ items, ∀ found, ∃ found', f found b = .ok found' ∧
      ∀ n, n ∈ found' ↔ n ∈ found ∨ adds b n) (found : OrderedSet α) :
    ∃ found', items.foldlM f found = .ok found' ∧
      ∀ n, n ∈ found' ↔ n ∈ found ∨ ∃ b ∈ items, adds b n := by
  induction items generalizing found with
  | nil => exact ⟨found, rfl, fun n => by simp⟩
  | cons b items ih =>
    obtain ⟨mid, hrun, hmid⟩ := h b List.mem_cons_self found
    obtain ⟨found', hrest, hfound'⟩ := ih (fun c hc => h c (List.mem_cons_of_mem _ hc)) mid
    refine ⟨found', ?_, fun n => ?_⟩
    · rw [List.foldlM_cons, hrun]
      exact hrest
    · rw [hfound', hmid, or_assoc]
      simp only [List.mem_cons, exists_eq_or_imp]

/-- The search was at the node. -/
def Met (stop : α → Prop) (s : OrderedSet α × OrderedSet α) (a : α) : Prop :=
  stop a ∧ a ∈ s.2 ∨ ¬ stop a ∧ a ∈ s.1

/-- What searches from some nodes add to what was met and found before. -/
structure Visits (stop : α → Prop) (succ : α → List α) (items : List α)
    (s t : OrderedSet α × OrderedSet α) : Prop where
  seen : ∀ b ∈ s.1, b ∈ t.1
  found : ∀ b ∈ s.2, b ∈ t.2
  sound : ∀ n ∈ t.2, n ∈ s.2 ∨ ∃ b ∈ items, Frontier stop succ b n
  met : ∀ b ∈ items, Met stop t b
  closed : ∀ b ∈ t.1, b ∉ s.1 → ∀ c ∈ succ b, Met stop t c

variable {s t u : OrderedSet α × OrderedSet α}

theorem Visits.met_of_met (h : Visits stop succ items s t) (hb : Met stop s b) : Met stop t b :=
  hb.imp (And.imp_right (h.found b)) (And.imp_right (h.seen b))

theorem Visits.nil : Visits stop succ [] s s :=
  ⟨fun _ h => h, fun _ h => h, fun _ h => .inl h, fun _ h => absurd h List.not_mem_nil,
    fun _ h hnew => absurd h hnew⟩

theorem Visits.cons (h : Visits stop succ [b] s t) (h' : Visits stop succ items t u) :
    Visits stop succ (b :: items) s u := by
  refine ⟨fun x hx => h'.seen x (h.seen x hx), fun x hx => h'.found x (h.found x hx), ?_, ?_, ?_⟩
  · intro n hn
    rcases h'.sound n hn with hn | ⟨c, hc, hfrontier⟩
    · rcases h.sound n hn with hn | ⟨c, hc, hfrontier⟩
      · exact .inl hn
      · exact .inr ⟨b, List.mem_cons_self, List.mem_singleton.mp hc ▸ hfrontier⟩
    · exact .inr ⟨c, List.mem_cons_of_mem _ hc, hfrontier⟩
  · intro x hx
    rcases List.mem_cons.mp hx with rfl | hx
    · exact h'.met_of_met (h.met x (List.mem_singleton_self x))
    · exact h'.met x hx
  · intro x hx hnew c hc
    by_cases hmid : x ∈ t.1
    · exact h'.met_of_met (h.closed x hmid hnew c hc)
    · exact h'.closed x hx hmid c hc

/-- A node that was met is not searched again. -/
theorem visits_seen (ha : ¬ stop a) (hseen : a ∈ s.1) : Visits stop succ [a] s s := by
  refine ⟨fun _ h => h, fun _ h => h, fun _ h => .inl h, ?_, fun _ h hnew => absurd h hnew⟩
  intro b hb
  obtain rfl := List.mem_singleton.mp hb
  exact .inr ⟨ha, hseen⟩

theorem foldlM_visits {f : OrderedSet α × OrderedSet α → α → Except ε (OrderedSet α × OrderedSet α)}
    (h : ∀ b ∈ items, ∀ s, (∀ x ∈ seen, x ∈ s.1) →
      ∃ t, f s b = .ok t ∧ Visits stop succ [b] s t) (hseen : ∀ x ∈ seen, x ∈ s.1) :
    ∃ t, items.foldlM f s = .ok t ∧ Visits stop succ items s t := by
  induction items generalizing s with
  | nil => exact ⟨s, rfl, .nil⟩
  | cons b items ih =>
    obtain ⟨t, hrun, hvisits⟩ := h b List.mem_cons_self s hseen
    obtain ⟨u, hrest, hvisits'⟩ := ih (fun c hc => h c (List.mem_cons_of_mem _ hc))
      fun x hx => hvisits.seen x (hseen x hx)
    refine ⟨u, ?_, hvisits.cons hvisits'⟩
    rw [List.foldlM_cons, hrun]
    exact hrest

end Several

section Spec

variable [DecidableEq α] {stops : α → Except ε Bool} {next : α → Except ε (List α)} {all : Finset α}
  {found found' : OrderedSet α} {fuel : ℕ}

theorem card_filter_insert_lt (ha : a ∈ all) (hnew : a ∉ seen) :
    (all.filter (· ∉ seen.insert a)).card < (all.filter (· ∉ seen)).card := by
  apply Remaining.card_lt_of_seen _ ha hnew
  · exact not_not_intro (OrderedSet.mem_insert.mpr (.inl rfl))
  · exact fun x hx hin => hx (OrderedSet.mem_insert.mpr (.inr hin))

theorem card_filter_le (hsub : ∀ x ∈ seen, x ∈ seen') :
    (all.filter (· ∉ seen')).card ≤ (all.filter (· ∉ seen)).card := by
  apply Remaining.card_le_of_seen
  exact fun x hx hin => hx (hsub x hin)

/-! ## The search that remembers its way -/

theorem searchOnPath_eq (exhausted : ε) (hs : Searchable stops next stop succ all) (ha : a ∈ all)
    (fuel : ℕ) (seen found : OrderedSet α) [Decidable (stop a)] :
    searchOnPath exhausted stops next (fuel + 1) seen found a =
      if stop a then .ok (found.insert a)
      else if a ∈ seen then .ok found
      else (succ a).foldlM (searchOnPath exhausted stops next fuel (seen.insert a)) found := by
  obtain ⟨b, hb, hiff⟩ := hs.stops_eq a ha
  rw [searchOnPath, hb, hs.next_eq a ha]
  cases b with
  | true => simp only [if_pos (hiff.mp rfl)]; rfl
  | false =>
    have hgo : ¬ stop a := fun h => Bool.noConfusion (hiff.mpr h)
    simp only [if_neg hgo]
    rfl

/-- **The search that remembers its way ends, and returns the frontier.** -/
theorem searchOnPath_spec (exhausted : ε) (hs : Searchable stops next stop succ all) (ha : a ∈ all)
    (hfuel : (all.filter (· ∉ seen)).card < fuel) (found : OrderedSet α) :
    ∃ found', searchOnPath exhausted stops next fuel seen found a = .ok found' ∧
      ∀ n, n ∈ found' ↔ n ∈ found ∨ FrontierOff stop succ seen a n := by
  classical
  induction fuel generalizing a seen found with
  | zero => exact absurd hfuel (Nat.not_lt_zero _)
  | succ fuel ih =>
    rw [searchOnPath_eq exhausted hs ha]
    by_cases hstop : stop a
    · rw [if_pos hstop]
      refine ⟨_, rfl, fun n => ?_⟩
      rw [OrderedSet.mem_insert, or_comm]
      refine or_congr_right ⟨?_, fun h => h.of_stop hstop⟩
      rintro rfl
      exact ⟨hstop, .refl⟩
    · rw [if_neg hstop]
      by_cases hseen : a ∈ seen
      · rw [if_pos hseen]
        refine ⟨found, rfl, fun n => (or_iff_left fun h => ?_).symm⟩
        exact (h.exists_child hstop).1 hseen
      · rw [if_neg hseen]
        have hcard := card_filter_insert_lt ha hseen
        have hfuel' : (all.filter (· ∉ seen.insert a)).card < fuel := by omega
        obtain ⟨found', hrun, hfound'⟩ := foldlM_adds
          (fun b hb found => ih (hs.succ_mem a ha b hb) hfuel' found) found
        refine ⟨found', hrun, fun n => (hfound' n).trans (or_congr_right ⟨?_, ?_⟩)⟩
        · rintro ⟨b, hb, hoff⟩
          exact hoff.of_insert hseen hstop hb
        · intro h
          obtain ⟨-, b, hb, hoff⟩ := h.exists_child hstop
          exact hoff.insert hb

/-! ## The search that remembers all nodes -/

variable {s t : OrderedSet α × OrderedSet α}

/-- A node at which the search stops is found. -/
theorem visits_stop (ha : stop a) : Visits stop succ [a] s (s.1, s.2.insert a) := by
  refine ⟨fun _ h => h, fun _ h => OrderedSet.mem_insert.mpr (.inr h), ?_, ?_,
    fun _ h hnew => absurd h hnew⟩
  · intro n hn
    rcases OrderedSet.mem_insert.mp hn with rfl | hn
    · exact .inr ⟨n, List.mem_singleton_self n, ha, .refl⟩
    · exact .inl hn
  · intro b hb
    obtain rfl := List.mem_singleton.mp hb
    exact .inl ⟨ha, OrderedSet.mem_insert.mpr (.inl rfl)⟩

/-- A new node is searched with its children. -/
theorem visits_children (ha : ¬ stop a)
    (h : Visits stop succ (succ a) (s.1.insert a, s.2) t) : Visits stop succ [a] s t := by
  refine ⟨fun x hx => h.seen x (OrderedSet.mem_insert.mpr (.inr hx)), h.found, ?_, ?_, ?_⟩
  · intro n hn
    rcases h.sound n hn with hn | ⟨b, hb, hstop, hpath⟩
    · exact .inl hn
    · exact .inr ⟨a, List.mem_singleton_self a, hstop, .head ⟨ha, hb⟩ hpath⟩
  · intro b hb
    obtain rfl := List.mem_singleton.mp hb
    exact .inr ⟨ha, h.seen b (OrderedSet.mem_insert.mpr (.inl rfl))⟩
  · intro x hx hnew c hc
    by_cases hxa : x = a
    · exact h.met c (hxa ▸ hc)
    · refine h.closed x hx (fun hin => ?_) c hc
      rcases OrderedSet.mem_insert.mp hin with heq | hold
      · exact hxa heq
      · exact hnew hold

section Common

variable (exhausted : ε) (hs : Searchable stops next stop succ all) (ha : a ∈ all)
include exhausted hs ha

theorem searchOnce_eq (fuel : ℕ) (s : OrderedSet α × OrderedSet α) [Decidable (stop a)] :
    searchOnce exhausted stops next (fuel + 1) s a =
      if stop a then .ok (s.1, s.2.insert a)
      else if a ∈ s.1 then .ok s
      else (succ a).foldlM (searchOnce exhausted stops next fuel) (s.1.insert a, s.2) := by
  obtain ⟨b, hb, hiff⟩ := hs.stops_eq a ha
  rw [searchOnce, hb, hs.next_eq a ha]
  cases b with
  | true => simp only [if_pos (hiff.mp rfl)]; rfl
  | false =>
    have hgo : ¬ stop a := fun h => Bool.noConfusion (hiff.mpr h)
    simp only [if_neg hgo]
    rfl

theorem searchOnce_visits (hfuel : (all.filter (· ∉ s.1)).card < fuel) :
    ∃ t, searchOnce exhausted stops next fuel s a = .ok t ∧ Visits stop succ [a] s t := by
  classical
  induction fuel generalizing a s with
  | zero => exact absurd hfuel (Nat.not_lt_zero _)
  | succ fuel ih =>
    rw [searchOnce_eq exhausted hs ha]
    by_cases hstop : stop a
    · rw [if_pos hstop]
      exact ⟨_, rfl, visits_stop hstop⟩
    · rw [if_neg hstop]
      by_cases hseen : a ∈ s.1
      · rw [if_pos hseen]
        exact ⟨s, rfl, visits_seen hstop hseen⟩
      · rw [if_neg hseen]
        have hcard := card_filter_insert_lt ha hseen
        obtain ⟨t, hrun, hvisits⟩ := foldlM_visits (s := (s.1.insert a, s.2))
          (fun b hb s' hgrown => ih (hs.succ_mem a ha b hb) (by
            have hle : (all.filter (· ∉ s'.1)).card ≤ (all.filter (· ∉ s.1.insert a)).card :=
              card_filter_le hgrown
            omega)) fun _ hx => hx
        exact ⟨t, hrun, visits_children hstop hvisits⟩

/-- **The search that remembers all nodes ends, and returns the frontier.** -/
theorem searchOnce_spec (hfuel : all.card < fuel) :
    ∃ t, searchOnce exhausted stops next fuel (.empty, .empty) a = .ok t ∧
      ∀ n, n ∈ t.2 ↔ Frontier stop succ a n := by
  have hcard : (all.filter (· ∉ (OrderedSet.empty : OrderedSet α))).card < fuel :=
    lt_of_le_of_lt (Finset.card_filter_le _ _) hfuel
  obtain ⟨t, hrun, hvisits⟩ := searchOnce_visits (s := (.empty, .empty)) exhausted hs ha hcard
  refine ⟨t, hrun, fun n => ⟨fun hn => ?_, ?_⟩⟩
  · rcases hvisits.sound n hn with hempty | ⟨b, hb, hfrontier⟩
    · exact absurd hempty OrderedSet.not_mem_empty
    · rwa [List.mem_singleton.mp hb] at hfrontier
  · rintro ⟨hstop, hpath⟩
    -- the search was at every node of the path
    have hmet : Met stop t n := by
      clear hstop
      induction hpath with
      | refl => exact hvisits.met a (List.mem_singleton_self a)
      | @tail x y _ hgo ih =>
        rcases ih with ⟨hx, -⟩ | ⟨-, hx⟩
        · exact absurd hx hgo.1
        · exact hvisits.closed x hx OrderedSet.not_mem_empty y hgo.2
    rcases hmet with ⟨-, hn⟩ | ⟨hgo, -⟩
    · exact hn
    · exact absurd hstop hgo

end Common

end Spec

end FrontierSearch
