import Mathlib.Data.Finset.Union
import N8n.Foundations.Failure
import N8n.Foundations.Remaining

/-!
# Collecting what follows

A search that starts from a place collects the items that follow it, enters the place of each new
item, and goes on from there. An item that is collected already is not entered again. Finding what
follows a place may fail.

## Main definitions

* `collectFrom`, `collect`: the search
* `Leads`: an item follows a place, directly or through other items

## Main results

* `collectFrom_spec`: what a search adds to what is collected already
* `collect_spec`: the search ends, and collects exactly the items its start leads to
-/

namespace Collecting

variable {ε α β : Type*}

section Search

variable [DecidableEq β] (exhausted : ε) (next : α → Except ε (List β)) (enter : β → α)

/-- `fuel` bounds the depth of the recursion. -/
def collectFrom : ℕ → List β → α → Except ε (List β)
  | 0, _, _ => .error exhausted
  | fuel + 1, found, a => do
    let items ← next a
    items.foldlM (fun found b =>
      if b ∈ found then pure found else collectFrom fuel (found ++ [b]) (enter b)) found

def collect (fuel : ℕ) (a : α) : Except ε (List β) := collectFrom exhausted next enter fuel [] a

end Search

/-- The item follows the place. -/
inductive Leads (succ : α → List β) (enter : β → α) : α → β → Prop
  | direct {a : α} {b : β} : b ∈ succ a → Leads succ enter a b
  | through {a : α} {b c : β} : b ∈ succ a → Leads succ enter (enter b) c → Leads succ enter a c

variable {next : α → Except ε (List β)} {enter : β → α} {succ : α → List β}

/-- The search does not fail at the places that a start leads to, and there are finitely many
items. -/
structure Searchable (next : α → Except ε (List β)) (enter : β → α) (succ : α → List β)
    (places : α → Prop) (all : Finset β) : Prop where
  next_eq : ∀ a, places a → next a = .ok (succ a)
  enter_mem : ∀ a, places a → ∀ b ∈ succ a, places (enter b)
  mem_all : ∀ a, places a → ∀ b ∈ succ a, b ∈ all

/-- What a search from a place adds: the items that follow the place, with all that follows the new
ones. -/
structure Adds (succ : α → List β) (enter : β → α) (a : α) (items found found' : List β) :
    Prop where
  grows : ∀ b ∈ found, b ∈ found'
  leads : ∀ b ∈ found', b ∈ found ∨ Leads succ enter a b
  direct : ∀ b ∈ items, b ∈ found'
  closed : ∀ b ∈ found', b ∉ found → ∀ c ∈ succ (enter b), c ∈ found'

section Spec

variable {places : α → Prop} {all : Finset β} {a : α} {b : β} {items found found' : List β}

theorem card_filter_concat_lt [DecidableEq β] (hb : b ∈ all) (hnew : b ∉ found) :
    (all.filter (· ∉ found ++ [b])).card < (all.filter (· ∉ found)).card := by
  apply Remaining.card_lt_of_seen _ hb hnew
  · exact not_not_intro (List.mem_append_right _ (List.mem_singleton_self b))
  · exact fun x hx hin => hx (List.mem_append_left _ hin)

theorem card_filter_le [DecidableEq β] (hsub : ∀ x ∈ found, x ∈ found') :
    (all.filter (· ∉ found')).card ≤ (all.filter (· ∉ found)).card := by
  apply Remaining.card_le_of_seen
  exact fun x hx hin => hx (hsub x hin)

/-- An item that is collected already adds nothing. -/
theorem Adds.skip (h : Adds succ enter a items found found') (hb : b ∈ found') :
    Adds succ enter a (items ++ [b]) found found' := by
  refine ⟨h.grows, h.leads, fun x hx => ?_, h.closed⟩
  rcases List.mem_append.mp hx with hx | hx
  · exact h.direct x hx
  · rwa [List.mem_singleton.mp hx]

/-- A new item is added with what a search from its place adds. -/
theorem Adds.concat {found'' : List β} (h : Adds succ enter a items found found')
    (hab : b ∈ succ a)
    (h' : Adds succ enter (enter b) (succ (enter b)) (found' ++ [b]) found'') :
    Adds succ enter a (items ++ [b]) found found'' := by
  have hb : b ∈ found'' := h'.grows b (List.mem_append_right _ (List.mem_singleton_self b))
  have hgrows : ∀ x ∈ found', x ∈ found'' := fun x hx => h'.grows x (List.mem_append_left _ hx)
  refine ⟨fun x hx => hgrows x (h.grows x hx), ?_, ?_, ?_⟩
  · intro x hx
    rcases h'.leads x hx with hx | hx
    · rcases List.mem_append.mp hx with hx | hx
      · exact h.leads x hx
      · rw [List.mem_singleton.mp hx]
        exact .inr (.direct hab)
    · exact .inr (.through hab hx)
  · intro x hx
    rcases List.mem_append.mp hx with hx | hx
    · exact hgrows x (h.direct x hx)
    · rwa [List.mem_singleton.mp hx]
  · intro x hx hnew c hc
    by_cases hold : x ∈ found'
    · exact hgrows c (h.closed x hold hnew c hc)
    · by_cases hxb : x = b
      · exact h'.direct c (hxb ▸ hc)
      · refine h'.closed x hx (fun hin => ?_) c hc
        rcases List.mem_append.mp hin with hin | hin
        · exact hold hin
        · exact hxb (List.mem_singleton.mp hin)

theorem collectFrom_spec [DecidableEq β] (exhausted : ε)
    (hs : Searchable next enter succ places all) {fuel : ℕ} (ha : places a)
    (hfuel : (all.filter (· ∉ found)).card < fuel) :
    ∃ found', collectFrom exhausted next enter fuel found a = .ok found' ∧
      Adds succ enter a (succ a) found found' := by
  induction fuel generalizing a found with
  | zero => exact absurd hfuel (Nat.not_lt_zero _)
  | succ fuel ih =>
    -- what the loop has done after some of the items
    have hloop : ∀ {done rest : List β} {mid : List β}, done ++ rest = succ a →
        Adds succ enter a done found mid → ∃ found', rest.foldlM (fun found b =>
          if b ∈ found then pure found
          else collectFrom exhausted next enter fuel (found ++ [b]) (enter b)) mid = .ok found' ∧
        Adds succ enter a (succ a) found found' := by
      intro done rest
      induction rest generalizing done with
      | nil =>
        intro mid hsplit hmid
        rw [List.append_nil] at hsplit
        exact ⟨mid, rfl, hsplit ▸ hmid⟩
      | cons b rest ihrest =>
        intro mid hsplit hmid
        have hb : b ∈ succ a := hsplit ▸ List.mem_append_right _ List.mem_cons_self
        have hsplit' : (done ++ [b]) ++ rest = succ a := by
          rw [List.append_assoc, List.singleton_append, hsplit]
        rw [List.foldlM_cons]
        by_cases hin : b ∈ mid
        · rw [if_pos hin]
          exact ihrest hsplit' (hmid.skip hin)
        · have hcard := card_filter_concat_lt (hs.mem_all a ha b hb) hin
          have hle : (all.filter (· ∉ mid)).card ≤ (all.filter (· ∉ found)).card :=
            card_filter_le hmid.grows
          have hfuel' : (all.filter (· ∉ mid ++ [b])).card < fuel := by omega
          obtain ⟨mid', hrun, hadds⟩ := ih (hs.enter_mem a ha b hb) hfuel'
          rw [if_neg hin, hrun]
          exact ihrest hsplit' (hmid.concat hb hadds)
    have hstart : Adds succ enter a [] found found :=
      ⟨fun _ hx => hx, fun _ hx => .inl hx, fun _ hx => absurd hx List.not_mem_nil,
        fun _ hx hnew => absurd hx hnew⟩
    obtain ⟨found', hrun, hadds⟩ := hloop (List.nil_append _) hstart
    refine ⟨found', ?_, hadds⟩
    rw [collectFrom, hs.next_eq a ha]
    exact hrun

theorem Adds.mem_of_leads (h : Adds succ enter a (succ a) [] found') (hb : Leads succ enter a b) :
    b ∈ found' := by
  have hclosed : ∀ {a' : α} {b : β}, Leads succ enter a' b → (∀ x ∈ succ a', x ∈ found') →
      b ∈ found' := by
    intro a' b hleads
    induction hleads with
    | direct hmem => exact fun hsucc => hsucc _ hmem
    | through hmem _ ih =>
      exact fun hsucc => ih (h.closed _ (hsucc _ hmem) List.not_mem_nil)
  exact hclosed hb h.direct

/-- **The search ends, and collects what its start leads to.** -/
theorem collect_spec [DecidableEq β] (exhausted : ε)
    (hs : Searchable next enter succ places all) (ha : places a) {fuel : ℕ}
    (hfuel : all.card < fuel) : ∃ found, collect exhausted next enter fuel a = .ok found ∧
      ∀ b, b ∈ found ↔ Leads succ enter a b := by
  have hcard : (all.filter (· ∉ ([] : List β))).card < fuel :=
    lt_of_le_of_lt (Finset.card_filter_le _ _) hfuel
  obtain ⟨found, hrun, hadds⟩ := collectFrom_spec exhausted hs ha hcard
  refine ⟨found, hrun, fun b => ⟨fun hb => ?_, hadds.mem_of_leads⟩⟩
  rcases hadds.leads b hb with hnil | hleads
  · exact absurd hnil List.not_mem_nil
  · exact hleads

end Spec

end Collecting
