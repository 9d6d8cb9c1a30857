import N8n.WorkflowExecute.ReleaseOrder

/-!
# Waiting entries are filled one after the other

A delivery fills the first entry of a node that misses data at the input. An entry has data wherever
a later one has, so the first entry is the first to be complete, and the first to have the data that
the node requires.

## Main definitions

* `Layered`: each entry misses data, and has data at every input where a later entry has

## Main results

* `Layered.delivered`: a delivery keeps this, if a new entry is under a key above all others
* `Layered.isLeast_complete`, `Layered.isLeast_released`: the entry that is completed or released is
  the first one
-/

namespace N8n.WorkflowExecute

open OrderedMap

variable {α : Type}

/-! ## Entries that are filled one after the other -/

/-- The entries of a node with `n` inputs: each misses data at some input, and has data wherever a
later one has. -/
structure Layered (n : ℕ) (entries : OrderedMap ℕ (InputData α)) : Prop where
  slots : ∀ {key main}, entries.get? key = some main → main.length = n
  misses : ∀ {key main}, entries.get? key = some main → main.all Option.isSome = false
  nested : ∀ {key key' main main'}, entries.get? key = some main → entries.get? key' = some main' →
    key < key' → ∀ i, (at? main' i).isSome → (at? main i).isSome

section Entries

variable {n input key : ℕ} {entries : OrderedMap ℕ (InputData α)} {main main' : InputData α}
variable {batch : Option (List α)}

theorem findWaitingNodeIndex_eq_some (h : findWaitingNodeIndex entries input = some key) :
    ∃ main, entries.get? key = some main ∧ at? main input = none ∧
      ∀ other main', entries.get? other = some main' → other < key → (at? main' input).isSome := by
  have hfree := findWaitingNodeIndex_free h
  obtain ⟨-, before, after, hkeys, hbefore⟩ := List.find?_eq_some_iff_append.mp h
  have hsorted := List.pairwise_insertionSort (· ≤ ·) entries.keys
  have hmem : ∀ k, k ∈ before ++ key :: after ↔ k ∈ entries.keys := by
    intro k
    rw [← hkeys]
    exact List.mem_insertionSort _
  obtain ⟨main, hmain⟩ := mem_keys.mp ((hmem key).mp (by simp))
  rw [hmain, Option.getD_some] at hfree
  refine ⟨main, hmain, hfree, ?_⟩
  intro other main' hother hlt
  rw [hkeys] at hsorted
  rcases List.mem_append.mp ((hmem other).mpr (mem_keys.mpr ⟨_, hother⟩)) with hb | ha
  · -- the entries before it have data for the input
    have := hbefore other hb
    rw [hother] at this
    simpa [Option.isSome_iff_ne_none] using this
  · exfalso
    rcases List.mem_cons.mp ha with rfl | ha
    · exact lt_irrefl _ hlt
    · have hle := List.rel_of_pairwise_cons (List.pairwise_append.mp hsorted).2.1 ha
      exact absurd hlt (not_lt.mpr hle)

theorem findWaitingNodeIndex_eq_none (h : findWaitingNodeIndex entries input = none)
    (hmain : entries.get? key = some main) : (at? main input).isSome := by
  have hkey : key ∈ entries.keys.insertionSort (· ≤ ·) :=
    (List.mem_insertionSort _).mpr (mem_keys.mpr ⟨_, hmain⟩)
  have := List.find?_eq_none.mp h key hkey
  rw [hmain] at this
  simpa [Option.isSome_iff_ne_none] using this

theorem at?_of_all (h : main.all Option.isSome = true) {i : ℕ} (hi : i < main.length) :
    (at? main i).isSome := by
  rw [at?, List.getElem?_eq_getElem hi]
  have := List.all_eq_true.mp h main[i] (List.getElem_mem hi)
  simpa using this

theorem all_of_at? (h : ∀ i < main.length, (at? main i).isSome) :
    main.all Option.isSome = true := by
  rw [List.all_eq_true]
  intro data hdata
  obtain ⟨i, hi, rfl⟩ := List.mem_iff_getElem.mp hdata
  have := h i hi
  rw [at?, List.getElem?_eq_getElem hi] at this
  simpa using this

theorem delete_keys_subset (entries : OrderedMap ℕ (InputData α)) (key : ℕ) :
    {k | k ∈ (entries.delete key).keys} ⊆ {k | k ∈ entries.keys} ∧
      key ∉ {k | k ∈ (entries.delete key).keys} := by
  constructor
  · intro k hk
    rw [Set.mem_ofPred_eq, keys_delete] at hk
    exact List.mem_of_mem_erase hk
  · rintro hk
    obtain ⟨main, hmain⟩ := mem_keys.mp hk
    rw [get?_delete_self] at hmain
    cases hmain

theorem mem_keys_set {entries : OrderedMap ℕ (InputData α)} {key k : ℕ} {main : InputData α}
    (h : k ∈ (entries.set key main).keys) : k = key ∨ k ∈ entries.keys := by
  rw [keys_set] at h
  split_ifs at h
  · exact .inr h
  · rcases List.mem_append.mp h with h | h
    · exact .inr h
    · exact .inl (List.mem_singleton.mp h)

namespace Layered

theorem delete (h : Layered n entries) (key : ℕ) : Layered n (entries.delete key) := by
  have hsub : ∀ {k main}, (entries.delete key).get? k = some main → entries.get? k = some main := by
    intro k main hk
    rw [get?_delete] at hk
    split_ifs at hk
    exact hk
  exact ⟨fun hk => h.slots (hsub hk), fun hk => h.misses (hsub hk),
    fun hk hk' => h.nested (hsub hk) (hsub hk')⟩

/-- What takes a batch has a slot for each input. -/
theorem length_setAt_entryFor (h : Layered n entries) (hinput : input < n) :
    (setAt (entryFor n entries input) input batch).length = n := by
  have hlength : (entryFor n entries input).length = n := by
    unfold entryFor
    split_ifs with hfind
    · obtain ⟨key, hkey⟩ := Option.isSome_iff_exists.mp hfind
      obtain ⟨main, hmain, -⟩ := findWaitingNodeIndex_eq_some hkey
      rw [waitingNodeIndexFor, hkey, Option.getD_some, hmain, Option.getD_some]
      exact h.slots hmain
    · exact List.length_replicate
  rw [setAt_of_lt (hlength.symm ▸ hinput), List.length_set, hlength]

/-- **The entry that a delivery completes is the first one.** -/
theorem isLeast_complete (h : Layered n entries) (hn : 1 < n) (hinput : input < n)
    (hall : (setAt (entryFor n entries input) input batch).all Option.isSome = true) :
    IsLeast {key | key ∈ entries.keys} (waitingNodeIndexFor entries input) := by
  have hlength := @length_setAt_entryFor _ _ _ _ batch h hinput
  have hdata : ∀ i < n, i ≠ input → (at? (entryFor n entries input) i).isSome := by
    intro i hi hne
    have := at?_of_all hall (hlength.symm ▸ hi)
    rwa [at?_setAt, if_neg hne] at this
  cases hfind : findWaitingNodeIndex entries input with
  | none =>
    -- a new entry misses data at another input
    exfalso
    obtain ⟨i, hi, hne⟩ : ∃ i < n, i ≠ input := by
      rcases Nat.eq_zero_or_pos input with rfl | hpos
      · exact ⟨1, hn, one_ne_zero⟩
      · exact ⟨0, hpos.trans hinput, hpos.ne⟩
    have := hdata i hi hne
    rw [entryFor, hfind, Option.isSome_none, if_neg Bool.false_ne_true, at?_replicate] at this
    cases this
  | some key =>
    obtain ⟨main, hmain, -, hbefore⟩ := findWaitingNodeIndex_eq_some hfind
    rw [entryFor, hfind, Option.isSome_some, if_pos rfl, waitingNodeIndexFor, hfind,
      Option.getD_some, hmain, Option.getD_some] at hdata
    rw [waitingNodeIndexFor, hfind, Option.getD_some]
    refine ⟨mem_keys.mpr ⟨main, hmain⟩, ?_⟩
    intro other hother
    obtain ⟨main', hmain'⟩ := mem_keys.mp hother
    by_contra hlt
    -- an entry before it would be complete already
    have hcomplete : main'.all Option.isSome = true := by
      apply all_of_at?
      intro i hi
      rw [h.slots hmain'] at hi
      by_cases hne : i = input
      · rw [hne]
        exact hbefore other main' hmain' (not_le.mp hlt)
      · exact h.nested hmain' hmain (not_le.mp hlt) i (hdata i hi hne)
    rw [h.misses hmain'] at hcomplete
    cases hcomplete

/-- **A delivery** leaves the entries filled one after the other, if an entry that it creates comes
after all others. -/
theorem delivered (h : Layered n entries) (hinput : input < n)
    (hnew : findWaitingNodeIndex entries input = none → ∀ key ∈ entries.keys, key < entries.size)
    (hall : (setAt (entryFor n entries input) input batch).all Option.isSome = false) :
    Layered n (entries.set (waitingNodeIndexFor entries input)
      (setAt (entryFor n entries input) input batch)) := by
  have hlength := @length_setAt_entryFor _ _ _ _ batch h hinput
  refine ⟨?_, ?_, ?_⟩
  · intro k main hk
    rw [get?_set] at hk
    split_ifs at hk
    · cases hk
      exact hlength
    · exact h.slots hk
  · intro k main hk
    rw [get?_set] at hk
    split_ifs at hk
    · cases hk
      exact hall
    · exact h.misses hk
  · intro k k' main main' hk hk' hlt i hi
    rw [get?_set] at hk hk'
    cases hfind : findWaitingNodeIndex entries input with
    | none =>
      rw [waitingNodeIndexFor, hfind, Option.getD_none] at hk hk'
      rw [entryFor, hfind, Option.isSome_none, if_neg Bool.false_ne_true] at hk hk'
      split_ifs at hk hk' with heq heq'
      · omega
      · -- no entry comes after the new one
        have := hnew hfind k' (mem_keys.mpr ⟨_, hk'⟩)
        omega
      · -- the others have data where the new one has
        cases hk'
        rw [at?_setAt, at?_replicate] at hi
        split_ifs at hi with hii
        · rw [hii]
          exact findWaitingNodeIndex_eq_none hfind hk
        · cases hi
      · exact h.nested hk hk' hlt i hi
    | some key =>
      obtain ⟨mainKey, hmain, hfree, hbefore⟩ := findWaitingNodeIndex_eq_some hfind
      rw [waitingNodeIndexFor, hfind, Option.getD_some] at hk hk'
      rw [entryFor, hfind, Option.isSome_some, if_pos rfl, waitingNodeIndexFor, hfind,
        Option.getD_some, hmain, Option.getD_some] at hk hk'
      split_ifs at hk hk' with heq heq' heq'
      · omega
      · -- a later entry has no data at the input that was missing
        cases hk
        have hold := h.nested hmain hk' (heq ▸ hlt) i hi
        rw [at?_setAt, if_neg]
        · exact hold
        · rintro rfl
          rw [hfree] at hold
          cases hold
      · cases hk'
        rw [at?_setAt] at hi
        split_ifs at hi with hii
        · rw [hii]
          exact hbefore k main hk (heq' ▸ hlt)
        · exact h.nested hk hmain (heq' ▸ hlt) i hi
      · exact h.nested hk hk' hlt i hi

end Layered

theorem HasRequired.mono {requiredInputs : Option RequiredInputs}
    (h : HasRequired main requiredInputs) (hlength : main.length = main'.length)
    (hsub : ∀ i, (at? main i).isSome → (at? main' i).isSome) :
    HasRequired main' requiredInputs := by
  rcases requiredInputs with _ | n | inputs
  · exact True.intro
  · apply le_trans h
    unfold inputsWithData
    rw [hlength]
    exact (List.monotone_filter_right _ hsub).length_le
  · exact fun i hi => hsub i (h i hi)

/-- **The entry that is released is the first one**, where the keys as strings begin with the
oldest. -/
theorem Layered.isLeast_released {workflow : Workflow} {d : ExecutionData α} {node : String}
    {data : List (List α)} (h : Layered n (d.waitingExecution.entriesOf node))
    (hfirst : OldestFirst workflow d node)
    (hrelease : releaseCandidate workflow d d.waitingNodes node = some (key, data)) :
    IsLeast {key | key ∈ (d.waitingExecution.entriesOf node).keys} key := by
  obtain ⟨hstring, hmay⟩ := isSome_releaseCandidate.mp ⟨data, hrelease⟩
  refine ⟨hstring.1, ?_⟩
  intro other hother
  -- the first of all entries has the data that is required, too
  have hkeys : {k | k ∈ (d.waitingExecution.entriesOf node).keys}.Nonempty := ⟨key, hstring.1⟩
  obtain ⟨least, hmem, hle⟩ : ∃ least ∈ (d.waitingExecution.entriesOf node).keys,
      ∀ k ∈ (d.waitingExecution.entriesOf node).keys, least ≤ k :=
    ⟨_, Nat.sInf_mem hkeys, fun _ hk => Nat.sInf_le hk⟩
  obtain ⟨checkNode, main, hnode, hall, hparents, hmain, hrequired⟩ := hmay
  obtain ⟨main', hmain'⟩ := mem_keys.mp hmem
  have hmay' : MayRelease workflow d node least := by
    refine ⟨checkNode, main', hnode, hall, hparents, hmain', ?_⟩
    rcases (hle key hstring.1).eq_or_lt with heq | hlt
    · rw [heq, hmain] at hmain'
      cases hmain'
      exact hrequired
    · apply hrequired.mono ((h.slots hmain).trans (h.slots hmain').symm)
      exact h.nested hmain' hmain hlt
  have hisLeast : IsLeast {key | MayRelease workflow d node key} least := by
    refine ⟨hmay', ?_⟩
    rintro k ⟨-, main'', -, -, -, hmain'', -⟩
    exact hle k (mem_keys.mpr ⟨_, hmain''⟩)
  rw [firstAsString_unique hstring (hfirst least hisLeast)]
  exact hle other hother

end Entries

end N8n.WorkflowExecute
