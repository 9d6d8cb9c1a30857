import Mathlib.Algebra.Order.BigOperators.Group.List
import N8n.ExecutionList.MergeExecutionPages
import N8n.Foundations.MergedPages

/-!
# The pages of an execution list

The rows of both stores, sorted, are one list. After so many pages of it, the cursor holds the last
row of each store among the rows so far, and the stores give the rows of the rest of the list. So
the next page is the next part of the list, and there is a cursor as long as there are more rows.

## Main definitions

* `Stores.rows`: the list
* `At`: a cursor after some rows
* `Platform.IsDocumented`: what is relied on of the platform
* `Walked`: what is said of the pages from a cursor on

## Main results

* `mergeExecutionPages_eq`: one page
* `walk_pages`: the pages are the rows of both stores in order, and every cursor is accepted
* `not_accepted`: a cursor with a year of five digits or a large identifier is not
-/

namespace N8n.ExecutionList

open OrderedMap

open IsoDate (toISOString yearOf)

/-! ## The order of rows -/

section Order

variable {a b c : ExecutionSummary}

def isDashed (row : ExecutionSummary) : Bool := row.id.toList.contains '-'

/-- `a` is listed before `b`, or they are equivalent. -/
def notAfter (a b : ExecutionSummary) : Bool := compareExecutionListItems a b ≤ 0

theorem compare_le_iff : compareExecutionListItems a b ≤ 0 ↔ b.time < a.time ∨ b.time = a.time ∧
    (isDashed a = true ∧ (isDashed b = true → b.id ≤ a.id) ∨
      isDashed a = false ∧ isDashed b = false ∧ number b.id ≤ number a.id) := by
  unfold compareExecutionListItems
  by_cases htime : b.time - a.time ≠ 0
  · rw [if_pos htime]
    omega
  · rw [if_neg htime]
    have heq : b.time = a.time := by omega
    change (if !isDashed a && !isDashed b then (number b.id : ℤ) - number a.id
      else if isDashed a != isDashed b then (if isDashed a then -1 else 1)
      else if a.id < b.id then 1 else if b.id < a.id then -1 else 0) ≤ 0 ↔ _
    cases ha : isDashed a <;> cases hb : isDashed b
    · simp [heq]
    · simp [heq]
    · simp [heq]
    · have hid : (if a.id < b.id then (1 : ℤ) else if b.id < a.id then -1 else 0) ≤ 0 ↔
          b.id ≤ a.id := by
        split_ifs with hab hba
        · exact iff_of_false (by decide) (not_le.mpr hab)
        · exact iff_of_true (by decide) hba.le
        · exact iff_of_true le_rfl (not_lt.mp hab)
      rw [if_neg (by decide), if_neg (by decide), hid]
      simp [heq]

theorem compare_swap (a b : ExecutionSummary) :
    compareExecutionListItems b a = -compareExecutionListItems a b := by
  unfold compareExecutionListItems
  by_cases htime : b.time - a.time ≠ 0
  · rw [if_pos htime, if_pos (by omega)]
    omega
  · rw [if_neg htime, if_neg (by omega)]
    change (if !isDashed b && !isDashed a then (number a.id : ℤ) - number b.id
      else if isDashed b != isDashed a then (if isDashed b then -1 else 1)
      else if b.id < a.id then 1 else if a.id < b.id then -1 else 0) =
        -(if !isDashed a && !isDashed b then (number b.id : ℤ) - number a.id
      else if isDashed a != isDashed b then (if isDashed a then -1 else 1)
      else if a.id < b.id then 1 else if b.id < a.id then -1 else 0)
    cases isDashed a <;> cases isDashed b
    · exact (neg_sub _ _).symm
    · rfl
    · rfl
    · change (if b.id < a.id then (1 : ℤ) else if a.id < b.id then -1 else 0) =
        -(if a.id < b.id then 1 else if b.id < a.id then -1 else 0)
      obtain h | h | h := lt_trichotomy a.id b.id
      · rw [if_neg h.not_gt, if_pos h, if_pos h]
      · rw [h, if_neg (lt_irrefl _), if_neg (lt_irrefl _)]
        rfl
      · rw [if_pos h, if_neg h.not_gt, if_pos h, neg_neg]

theorem notAfter_trans (a b c : ExecutionSummary) (hab : notAfter a b) (hbc : notAfter b c) :
    notAfter a c := by
  have hab' := compare_le_iff.1 (of_decide_eq_true hab)
  have hbc' := compare_le_iff.1 (of_decide_eq_true hbc)
  refine decide_eq_true (compare_le_iff.2 ?_)
  obtain hab' | ⟨hab', hid⟩ := hab'
  · exact .inl (by omega)
  obtain hbc' | ⟨hbc', hid'⟩ := hbc'
  · exact .inl (by omega)
  refine .inr ⟨hbc'.trans hab', ?_⟩
  obtain ⟨ha, hid⟩ | ⟨ha, hb, hid⟩ := hid
  · refine .inl ⟨ha, fun hc => ?_⟩
    obtain ⟨hb, hid'⟩ | ⟨hb, hc', -⟩ := hid'
    · exact (hid' hc).trans (hid hb)
    · exact nomatch hc.symm.trans hc'
  · obtain ⟨hb', -⟩ | ⟨-, hc, hid'⟩ := hid'
    · exact nomatch hb.symm.trans hb'
    · exact .inr ⟨ha, hc, hid'.trans hid⟩

theorem notAfter_total (a b : ExecutionSummary) : notAfter a b || notAfter b a := by
  rw [Bool.or_eq_true]
  unfold notAfter
  rw [decide_eq_true_iff, decide_eq_true_iff, compare_le_iff, compare_le_iff]
  obtain htime | htime | htime := lt_trichotomy a.time b.time
  · exact .inr (.inl htime)
  · cases ha : isDashed a <;> cases hb : isDashed b
    · obtain h | h := Nat.le_total (number a.id) (number b.id)
      · exact .inr (.inr ⟨htime, .inr ⟨rfl, rfl, h⟩⟩)
      · exact .inl (.inr ⟨htime.symm, .inr ⟨rfl, rfl, h⟩⟩)
    · exact .inr (.inr ⟨htime, .inl ⟨rfl, Bool.noConfusion⟩⟩)
    · exact .inl (.inr ⟨htime.symm, .inl ⟨rfl, Bool.noConfusion⟩⟩)
    · obtain h | h := le_total a.id b.id
      · exact .inr (.inr ⟨htime, .inl ⟨rfl, fun _ => h⟩⟩)
      · exact .inl (.inr ⟨htime.symm, .inl ⟨rfl, fun _ => h⟩⟩)
  · exact .inl (.inl htime)

/-- Rows that are equivalent have one identifier, or numerals of one number. -/
theorem id_of_notAfter (hab : notAfter a b) (hba : notAfter b a) : isDashed a = isDashed b ∧
    (isDashed a = true → a.id = b.id) ∧ (isDashed a = false → number a.id = number b.id) := by
  have hab' := compare_le_iff.1 (of_decide_eq_true hab)
  have hba' := compare_le_iff.1 (of_decide_eq_true hba)
  have htime : b.time = a.time := by omega
  obtain hab' | ⟨-, hab'⟩ := hab'
  · omega
  obtain hba' | ⟨-, hba'⟩ := hba'
  · omega
  obtain ⟨ha, hid⟩ | ⟨ha, hb, hid⟩ := hab'
  · obtain ⟨hb, hid'⟩ | ⟨-, ha', -⟩ := hba'
    · refine ⟨ha.trans hb.symm, fun _ => le_antisymm (hid' ha) (hid hb), fun hnot => ?_⟩
      exact nomatch ha.symm.trans hnot
    · exact nomatch ha.symm.trans ha'
  · obtain ⟨hb', -⟩ | ⟨-, -, hid'⟩ := hba'
    · exact nomatch hb.symm.trans hb'
    · refine ⟨ha.trans hb.symm, fun hyes => ?_, fun _ => Nat.le_antisymm hid' hid⟩
      exact nomatch ha.symm.trans hyes

end Order

/-! ## Identifiers -/

theorem length_of_isMatch : ∀ {ps : List (Char → Bool)} {cs : List Char}, isMatch ps cs = true →
    cs.length = ps.length
  | [], [], _ => rfl
  | [], _ :: _, h => nomatch h
  | _ :: _, [], h => nomatch h
  | p :: ps, c :: cs, h => by
    rw [isMatch, Bool.and_eq_true] at h
    rw [List.length_cons, List.length_cons, length_of_isMatch h.2]

/-- Each part of a pattern is met by a character. -/
theorem exists_of_isMatch : ∀ {ps : List (Char → Bool)} {cs : List Char}, isMatch ps cs = true →
    ∀ p ∈ ps, ∃ c ∈ cs, p c = true
  | [], _, _, p, hp => absurd hp List.not_mem_nil
  | _ :: _, [], h, _, _ => nomatch h
  | q :: ps, c :: cs, h, p, hp => by
    rw [isMatch, Bool.and_eq_true] at h
    obtain rfl | hp := List.mem_cons.mp hp
    · exact ⟨c, List.mem_cons_self, h.1⟩
    · obtain ⟨c', hc', hp⟩ := exists_of_isMatch h.2 p hp
      exact ⟨c', List.mem_cons_of_mem c hc', hp⟩

/-- Each character meets a part of the pattern. -/
theorem all_of_isMatch : ∀ {ps : List (Char → Bool)} {cs : List Char}, isMatch ps cs = true →
    ∀ c ∈ cs, ∃ p ∈ ps, p c = true
  | _, [], _, c, hc => absurd hc List.not_mem_nil
  | [], _ :: _, h, _, _ => nomatch h
  | p :: ps, d :: cs, h, c, hc => by
    rw [isMatch, Bool.and_eq_true] at h
    obtain rfl | hc := List.mem_cons.mp hc
    · exact ⟨p, List.mem_cons_self, h.1⟩
    · obtain ⟨p', hp', hc⟩ := all_of_isMatch h.2 c hc
      exact ⟨p', List.mem_cons_of_mem p hp', hc⟩

theorem dash_mem_of_v2 {id : String} (h : isExecutionIdV2 id = true) : '-' ∈ id.toList := by
  have hmem : oneOf ['-'] ∈ uuidV7Pattern := by
    simp only [uuidV7Pattern, List.mem_append, List.mem_cons, true_or, or_true]
  obtain ⟨c, hc, hdash⟩ := exists_of_isMatch h _ hmem
  rw [oneOf, List.contains_iff_mem, List.mem_singleton] at hdash
  exact hdash ▸ hc

theorem isDigit_of_mem_repr {n : ℕ} {c : Char} (hc : c ∈ n.repr.toList) : c.isDigit = true := by
  rw [Nat.toList_repr] at hc
  exact Nat.isDigit_of_mem_toDigits (by decide) (by decide) hc

theorem number_repr (n : ℕ) : number n.repr = n := by
  rw [number, Nat.toList_repr, Nat.ofDigitChars_toDigits (by decide) (by decide)]

theorem dash_not_mem_repr (n : ℕ) : '-' ∉ n.repr.toList := fun h =>
  absurd (isDigit_of_mem_repr h) (by decide)

namespace Stores

variable {stores : Stores} {a b : ExecutionSummary}

/-- The rows of both engines in order. -/
def rows (stores : Stores) : List ExecutionSummary := (stores.v1 ++ stores.v2).mergeSort notAfter

theorem mem_rows : a ∈ stores.rows ↔ a ∈ stores.v1 ∨ a ∈ stores.v2 := by
  rw [rows, List.mem_mergeSort, List.mem_append]

theorem isDashed_v1 (ha : a ∈ stores.v1) : isDashed a = false := by
  obtain ⟨n, -, hid⟩ := stores.v1_id a ha
  rw [isDashed, hid, ← Bool.not_eq_true, List.contains_iff_mem]
  exact dash_not_mem_repr n

theorem isDashed_v2 (ha : a ∈ stores.v2) : isDashed a = true :=
  List.contains_iff_mem.mpr (dash_mem_of_v2 (stores.v2_id a ha))

/-- The pattern tells the rows of the engines apart. -/
theorem isExecutionIdV2_eq (ha : a ∈ stores.rows) : isExecutionIdV2 a.id = isDashed a := by
  obtain ha | ha := mem_rows.1 ha
  · rw [isDashed_v1 ha]
    refine Bool.eq_false_iff.mpr fun h => ?_
    exact nomatch (isDashed_v1 ha).symm.trans (List.contains_iff_mem.mpr (dash_mem_of_v2 h))
  · rw [isDashed_v2 ha, stores.v2_id a ha]

theorem mem_v2_iff (ha : a ∈ stores.rows) : a ∈ stores.v2 ↔ isExecutionIdV2 a.id = true := by
  rw [isExecutionIdV2_eq ha]
  obtain ha | ha := mem_rows.1 ha
  · refine iff_of_false (fun h => ?_) (Bool.eq_false_iff.mp (isDashed_v1 ha))
    exact nomatch (isDashed_v1 ha).symm.trans (isDashed_v2 h)
  · exact iff_of_true ha (isDashed_v2 ha)

theorem mem_v1_iff (ha : a ∈ stores.rows) : a ∈ stores.v1 ↔ isExecutionIdV2 a.id = false := by
  rw [isExecutionIdV2_eq ha]
  obtain ha | ha := mem_rows.1 ha
  · exact iff_of_true ha (isDashed_v1 ha)
  · refine iff_of_false (fun h => ?_) (Bool.eq_false_iff.not.mpr (not_not.mpr (isDashed_v2 ha)))
    exact nomatch (isDashed_v1 h).symm.trans (isDashed_v2 ha)

theorem eq_of_number (ha : a ∈ stores.v1) (hb : b ∈ stores.v1)
    (h : number a.id = number b.id) : a = b := by
  obtain ⟨n, -, hn⟩ := stores.v1_id a ha
  obtain ⟨m, -, hm⟩ := stores.v1_id b hb
  rw [hn, hm, number_repr, number_repr] at h
  exact List.inj_on_of_nodup_map stores.v1_nodup ha hb (hn.trans (h ▸ hm.symm))

theorem eq_of_notAfter (ha : a ∈ stores.rows) (hb : b ∈ stores.rows) (hab : notAfter a b)
    (hba : notAfter b a) : a = b := by
  obtain ⟨hdashed, hid, hnumber⟩ := id_of_notAfter hab hba
  rw [← isExecutionIdV2_eq ha, ← isExecutionIdV2_eq hb] at hdashed
  rw [← isExecutionIdV2_eq ha] at hid hnumber
  cases h : isExecutionIdV2 a.id with
  | true =>
    exact List.inj_on_of_nodup_map stores.v2_nodup ((mem_v2_iff ha).mpr h)
      ((mem_v2_iff hb).mpr (hdashed.symm.trans h)) (hid h)
  | false =>
    exact eq_of_number ((mem_v1_iff ha).mpr h) ((mem_v1_iff hb).mpr (hdashed.symm.trans h))
      (hnumber h)

theorem rows_perm (stores : Stores) : stores.rows.Perm (stores.v1 ++ stores.v2) :=
  List.mergeSort_perm _ _

theorem rows_pairwise (stores : Stores) : stores.rows.Pairwise (fun a b => notAfter a b) :=
  List.pairwise_mergeSort notAfter_trans notAfter_total _

theorem rows_nodup (stores : Stores) : stores.rows.Nodup := by
  refine stores.rows_perm.nodup_iff.mpr (List.Nodup.append stores.v1_nodup.of_map
    stores.v2_nodup.of_map fun a h1 h2 => ?_)
  exact nomatch (isDashed_v1 h1).symm.trans (isDashed_v2 h2)

/-- Each row is listed before those that follow it. -/
theorem rows_strict (stores : Stores) :
    stores.rows.Pairwise (fun a b => compareExecutionListItems a b < 0) := by
  refine (stores.rows_pairwise.and stores.rows_nodup).imp_of_mem fun {a b} ha hb h => ?_
  have hle : compareExecutionListItems a b ≤ 0 := of_decide_eq_true h.1
  refine lt_of_le_of_ne hle fun heq => h.2 (eq_of_notAfter ha hb h.1 (decide_eq_true ?_))
  rw [compare_swap, heq]
  exact le_rfl

end Stores

/-! ## The rows of a store -/

def inStore : Store → ExecutionSummary → Bool
  | .v1, row => !isExecutionIdV2 row.id
  | .v2, row => isExecutionIdV2 row.id

/-- A row of a store comes before another one, in the order of the store. -/
def newer : Store → ExecutionSummary → ExecutionSummary → Bool
  | .v1, a, b => number b.id < number a.id
  | .v2, a, b => b.time < a.time || (b.time = a.time && b.id < a.id)

theorem newer_irrefl (store : Store) (a : ExecutionSummary) : newer store a a = false := by
  cases store with
  | v1 => exact decide_eq_false (lt_irrefl _)
  | v2 => simp only [newer, lt_irrefl, decide_false, Bool.and_false, Bool.or_false]

theorem newer_asymm (store : Store) (a b : ExecutionSummary) (h : newer store a b) :
    newer store b a = false := by
  cases store with
  | v1 => exact decide_eq_false (of_decide_eq_true h).le.not_gt
  | v2 =>
    simp only [newer, Bool.or_eq_true, Bool.and_eq_true, decide_eq_true_eq] at h
    simp only [newer, Bool.or_eq_false_iff, Bool.and_eq_false_iff, decide_eq_false_iff_not]
    obtain h | ⟨htime, hid⟩ := h
    · exact ⟨h.le.not_gt, .inl h.ne'⟩
    · exact ⟨htime.le.not_gt, .inr hid.le.not_gt⟩

namespace Stores

variable {stores : Stores} {a b : ExecutionSummary}

/-- In a store the order of the list is its own. -/
theorem newer_of_lt (store : Store) (ha : a ∈ stores.rows) (hb : b ∈ stores.rows)
    (hsa : inStore store a = true) (hsb : inStore store b = true)
    (hlt : compareExecutionListItems a b < 0) : newer store a b = true := by
  have hle := compare_le_iff.mp hlt.le
  have hne : a ≠ b := by
    rintro rfl
    have hswap := compare_swap a a
    omega
  cases store with
  | v1 =>
    rw [inStore, Bool.not_eq_true'] at hsa hsb
    have ha1 := (mem_v1_iff ha).mpr hsa
    have hb1 := (mem_v1_iff hb).mpr hsb
    refine decide_eq_true (lt_of_not_ge fun hnumber => ?_)
    -- a higher number would be a later time
    have hlt : number a.id < number b.id :=
      lt_of_le_of_ne hnumber fun heq => hne (eq_of_number ha1 hb1 heq)
    have htime := stores.agree a ha1 b hb1 hlt
    obtain hle | ⟨-, ⟨hdashed, -⟩ | ⟨-, -, hle⟩⟩ := hle
    · omega
    · exact nomatch (isDashed_v1 ha1).symm.trans hdashed
    · omega
  | v2 =>
    rw [inStore] at hsa hsb
    have ha2 := (mem_v2_iff ha).mpr hsa
    have hb2 := (mem_v2_iff hb).mpr hsb
    simp only [newer, Bool.or_eq_true, Bool.and_eq_true, decide_eq_true_eq]
    obtain hle | ⟨htime, ⟨-, hid⟩ | ⟨hdashed, -⟩⟩ := hle
    · exact .inl hle
    · refine .inr ⟨htime, lt_of_le_of_ne (hid (isDashed_v2 hb2)) fun heq => hne ?_⟩
      exact List.inj_on_of_nodup_map stores.v2_nodup ha2 hb2 heq.symm
    · exact nomatch (isDashed_v2 ha2).symm.trans hdashed

theorem pairwise_newer (stores : Stores) (store : Store) :
    (stores.rows.filter (inStore store)).Pairwise (fun a b => newer store a b = true) := by
  refine (stores.rows_strict.filter _).imp_of_mem fun {a b} ha hb h => ?_
  obtain ⟨ha, hsa⟩ := List.mem_filter.mp ha
  obtain ⟨hb, hsb⟩ := List.mem_filter.mp hb
  exact newer_of_lt store ha hb hsa hsb h

theorem filter_perm_v1 (stores : Stores) :
    (stores.rows.filter (inStore .v1)).Perm stores.v1 := by
  have hv1 : stores.v1.filter (inStore .v1) = stores.v1 :=
    List.filter_eq_self.mpr fun a ha => by
      rw [inStore, (mem_v1_iff (mem_rows.mpr (.inl ha))).mp ha]
      rfl
  have hv2 : stores.v2.filter (inStore .v1) = [] :=
    List.filter_eq_nil_iff.mpr fun a ha => by
      rw [inStore, stores.v2_id a ha]
      exact Bool.noConfusion
  have hperm := stores.rows_perm.filter (inStore .v1)
  rwa [List.filter_append, hv1, hv2, List.append_nil] at hperm

theorem filter_perm_v2 (stores : Stores) :
    (stores.rows.filter (inStore .v2)).Perm stores.v2 := by
  have hv1 : stores.v1.filter (inStore .v2) = [] :=
    List.filter_eq_nil_iff.mpr fun a ha => by
      rw [inStore, (mem_v1_iff (mem_rows.mpr (.inl ha))).mp ha]
      exact Bool.noConfusion
  have hv2 : stores.v2.filter (inStore .v2) = stores.v2 :=
    List.filter_eq_self.mpr fun a ha => stores.v2_id a ha
  have hperm := stores.rows_perm.filter (inStore .v2)
  rwa [List.filter_append, hv1, hv2, List.nil_append] at hperm

/-- The store of engine 1.0 gives its rows in the order of the list. -/
theorem sort_v1 (stores : Stores) : (stores.v1.mergeSort fun a b => number b.id ≤ number a.id) =
    stores.rows.filter (inStore .v1) := by
  have hsorted : (stores.v1.mergeSort fun a b => number b.id ≤ number a.id).Pairwise
      (fun a b => decide (number b.id ≤ number a.id) = true) := by
    refine List.pairwise_mergeSort (fun a b c hab hbc => ?_) (fun a b => ?_) _
    · exact decide_eq_true ((of_decide_eq_true hbc).trans (of_decide_eq_true hab))
    · rw [Bool.or_eq_true, decide_eq_true_iff, decide_eq_true_iff]
      exact Nat.le_total _ _
  refine List.Perm.eq_of_pairwise ?_ hsorted ?_
    ((List.mergeSort_perm _ _).trans stores.filter_perm_v1.symm)
  · intro a b ha hb hab hba
    have hb1 := stores.filter_perm_v1.mem_iff.mp hb
    exact eq_of_number (List.mem_mergeSort.mp ha) hb1
      (Nat.le_antisymm (of_decide_eq_true hba) (of_decide_eq_true hab))
  · refine (stores.pairwise_newer .v1).imp fun {a b} h => ?_
    exact decide_eq_true (of_decide_eq_true h).le

/-- So does the store of engine 2.0. -/
theorem sort_v2 (stores : Stores) : (stores.v2.mergeSort fun a b =>
    b.time < a.time || (b.time = a.time && b.id ≤ a.id)) = stores.rows.filter (inStore .v2) := by
  have hsorted : (stores.v2.mergeSort fun a b =>
      b.time < a.time || (b.time = a.time && b.id ≤ a.id)).Pairwise (fun a b =>
        (decide (b.time < a.time) || (decide (b.time = a.time) && decide (b.id ≤ a.id))) =
          true) := by
    refine List.pairwise_mergeSort (fun a b c hab hbc => ?_) (fun a b => ?_) _
    · simp only [Bool.or_eq_true, Bool.and_eq_true, decide_eq_true_eq] at hab hbc ⊢
      obtain hab | ⟨hab, hid⟩ := hab
      · exact .inl (by omega)
      obtain hbc | ⟨hbc, hid'⟩ := hbc
      · exact .inl (by omega)
      exact .inr ⟨hbc.trans hab, hid'.trans hid⟩
    · simp only [Bool.or_eq_true, Bool.and_eq_true, decide_eq_true_eq]
      obtain h | h | h := lt_trichotomy a.time b.time
      · exact .inr (.inl h)
      · obtain hid | hid := le_total a.id b.id
        · exact .inr (.inr ⟨h, hid⟩)
        · exact .inl (.inr ⟨h.symm, hid⟩)
      · exact .inl (.inl h)
  refine List.Perm.eq_of_pairwise ?_ hsorted ?_
    ((List.mergeSort_perm _ _).trans stores.filter_perm_v2.symm)
  · intro a b ha hb hab hba
    simp only [Bool.or_eq_true, Bool.and_eq_true, decide_eq_true_eq] at hab hba
    have hb2 := stores.filter_perm_v2.mem_iff.mp hb
    refine List.inj_on_of_nodup_map stores.v2_nodup (List.mem_mergeSort.mp ha) hb2 ?_
    obtain hab | ⟨htime, hab⟩ := hab
    · exact absurd hab (hba.elim (fun h => h.le.not_gt) fun h => h.1.le.not_gt)
    · exact le_antisymm (hba.resolve_left htime.le.not_gt).2 hab
  · refine (stores.pairwise_newer .v2).imp fun {a b} h => ?_
    simp only [newer, Bool.or_eq_true, Bool.and_eq_true, decide_eq_true_eq] at h ⊢
    exact h.imp_right fun h => ⟨h.1, h.2.le⟩

end Stores

/-! ## Cursors along the list -/

def lastOf (store : Store) (rows : List ExecutionSummary) : Option ExecutionSummary :=
  rows.reverse.find? (inStore store)

theorem lastOf_eq (store : Store) (rows : List ExecutionSummary) :
    lastOf store rows = (rows.filter (inStore store)).getLast? := by
  rw [lastOf, ← List.head?_filter, List.filter_reverse, List.head?_reverse]

theorem lastOf_append (store : Store) (front rest : List ExecutionSummary) :
    lastOf store (front ++ rest) = (lastOf store rest).or (lastOf store front) := by
  rw [lastOf_eq, lastOf_eq, lastOf_eq, List.filter_append, List.getLast?_append]

theorem lastOf_mem {store : Store} {rows : List ExecutionSummary} {row : ExecutionSummary}
    (h : lastOf store rows = some row) : row ∈ rows ∧ inStore store row = true :=
  ⟨List.mem_reverse.mp (List.mem_of_find?_eq_some h), List.find?_some h⟩

/-- The cursor after some rows. -/
def At (front : List ExecutionSummary) (cursor : ExecutionCursor) : Prop :=
  ∀ store, cursor.get? store = (lastOf store front).map positionOf

theorem At.empty : At [] .empty := fun _ => rfl

def FourDigits (t : ℤ) : Prop := 0 ≤ yearOf t ∧ yearOf t ≤ 9999

/-- What is relied on: times of four-digit years and UUIDs of version 7 are valid, and the store of
engine 2.0 reads a time as it was. -/
structure Platform.IsDocumented (z : Platform) (instant : String → ℤ) : Prop where
  datetime_iso : ∀ t, FourDigits t → z.datetime (toISOString t) = true
  uuid_v7 : ∀ id, isExecutionIdV2 id = true → z.uuid id = true
  double_one : z.double 1 = 1
  instant_iso : ∀ t, FourDigits t → instant (toISOString t) = t

theorem storePage_eq (limit : ℕ) (rows : List ExecutionSummary) :
    storePage limit rows = ⟨rows.take limit, limit < rows.length⟩ := by
  have hmore : limit < min (limit + 1) rows.length ↔ limit < rows.length := by omega
  unfold storePage
  dsimp only
  rw [List.take_take, Nat.min_eq_left (Nat.le_succ limit), List.length_take]
  simp only [hmore]

section Pages

variable {z : Platform} {instant : String → ℤ} {stores : Stores} {limit : ℕ}
  {front rest : List ExecutionSummary} {cursor : ExecutionCursor} {value : Option String}

/-- A store has the rows of the rest of the list after its position. -/
theorem rowsAfter_rest (hrows : stores.rows = front ++ rest) (store : Store) :
    MergedPages.rowsAfter (newer store) (lastOf store front)
      (stores.rows.filter (inStore store)) = rest.filter (inStore store) := by
  have hsorted := stores.pairwise_newer store
  rw [hrows, List.filter_append] at hsorted ⊢
  rw [lastOf_eq]
  exact MergedPages.rowsAfter_split hsorted (newer_irrefl store) (newer_asymm store)

theorem v1Page_eq (hrows : stores.rows = front ++ rest) (hat : At front cursor) :
    v1Page stores limit cursor = ⟨(rest.filter (inStore .v1)).take limit,
      limit < (rest.filter (inStore .v1)).length⟩ := by
  rw [← rowsAfter_rest hrows .v1, ← storePage_eq, v1Page, stores.sort_v1, hat .v1]
  congr 1
  refine List.filter_congr fun row _ => ?_
  cases lastOf .v1 front with
  | none => rfl
  | some last => rfl

theorem v2Page_eq (hz : z.IsDocumented instant) (htimes : ∀ row ∈ stores.rows, FourDigits row.time)
    (hrows : stores.rows = front ++ rest) (hat : At front cursor) :
    v2Page instant stores limit cursor = ⟨(rest.filter (inStore .v2)).take limit,
      limit < (rest.filter (inStore .v2)).length⟩ := by
  rw [← rowsAfter_rest hrows .v2, ← storePage_eq, v2Page, stores.sort_v2, hat .v2]
  congr 1
  refine List.filter_congr fun row _ => ?_
  cases hlast : lastOf .v2 front with
  | none => rfl
  | some last =>
    have hmem : last ∈ stores.rows := hrows ▸ List.mem_append_left rest (lastOf_mem hlast).1
    have hinstant := hz.instant_iso last.time (htimes last hmem)
    change (decide (row.time < instant (toISOString last.time)) ||
      (decide (row.time = instant (toISOString last.time)) && decide (row.id < last.id))) = _
    rw [hinstant]
    rfl

/-- A position is set to the last row of its store on the page. -/
theorem At.step (hat : At front cursor) (page : List ExecutionSummary) {next : ExecutionCursor}
    (hnext : next =
      match lastOf .v2 page with
      | some row => (match lastOf .v1 page with
        | some row => cursor.set .v1 (positionOf row)
        | none => cursor).set .v2 (positionOf row)
      | none => match lastOf .v1 page with
        | some row => cursor.set .v1 (positionOf row)
        | none => cursor) : At (front ++ page) next := by
  intro store
  rw [lastOf_append, hnext]
  have hstore := hat store
  cases store with
  | v1 =>
    cases lastOf .v1 page with
    | none =>
      cases lastOf .v2 page with
      | none => exact hstore
      | some row => exact (get?_set_of_ne Store.noConfusion).trans hstore
    | some row =>
      cases lastOf .v2 page with
      | none => exact get?_set.trans (if_pos rfl)
      | some row' =>
        refine (get?_set_of_ne Store.noConfusion).trans ?_
        exact get?_set.trans (if_pos rfl)
  | v2 =>
    cases lastOf .v2 page with
    | none =>
      cases lastOf .v1 page with
      | none => exact hstore
      | some row => exact (get?_set_of_ne Store.noConfusion).trans hstore
    | some row => exact get?_set.trans (if_pos rfl)

/-- **One page**: the next rows of the list, and a cursor after them if there are more. -/
theorem mergeExecutionPages_eq (hz : z.IsDocumented instant)
    (htimes : ∀ row ∈ stores.rows, FourDigits row.time) (hlimit : 1 ≤ limit)
    (hrows : stores.rows = front ++ rest) (hat : At front cursor) :
    ∃ next, At (front ++ rest.take limit) next ∧
      mergeExecutionPages [v1Page stores limit cursor, v2Page instant stores limit cursor] limit
        (some cursor) = ⟨rest.take limit,
          if limit < rest.length then some (encodeExecutionCursor next) else none⟩ := by
  have hv2 : (fun row => !inStore .v1 row) = inStore .v2 := funext fun row => Bool.not_not _
  have hsorted := stores.rows_pairwise
  rw [hrows] at hsorted
  have hmem : ∀ a ∈ rest, a ∈ stores.rows := fun a ha => hrows ▸ List.mem_append_right front ha
  have hresults := MergedPages.take_mergeSort_take (n := limit) (inStore .v1)
    (List.pairwise_append.mp hsorted).2.1 notAfter_trans notAfter_total
    fun a ha b hb => Stores.eq_of_notAfter (hmem a ha) (hmem b hb)
  have hmore := @MergedPages.more_rows_iff _ limit rest (inStore .v1)
  rw [hv2] at hresults hmore
  refine ⟨_, hat.step (rest.take limit) rfl, ?_⟩
  rw [v1Page_eq hrows hat, v2Page_eq hz htimes hrows hat]
  have hle : (fun a b => decide (compareExecutionListItems a b ≤ 0)) = notAfter := rfl
  unfold mergeExecutionPages
  simp only [List.flatMap_cons, List.flatMap_nil, List.append_nil, List.any_cons, List.any_nil,
    Bool.or_false, hle, hresults, List.length_mergeSort, ← Bool.decide_or, hmore]
  by_cases hrest : limit < rest.length
  · have hnonempty : (rest.take limit).isEmpty = false := by
      refine List.isEmpty_eq_false_iff.mpr fun hnil => ?_
      have hlength := congrArg List.length hnil
      rw [List.length_take, List.length_nil] at hlength
      omega
    rw [if_pos hrest, hnonempty, if_pos (by simpa using hrest)]
    rfl
  · rw [if_neg hrest, if_neg (by simp [hrest])]

/-! ## The walk -/

/-- The first digit of a positive number is not zero. -/
theorem exists_toDigits (n : ℕ) (hn : 0 < n) :
    ∃ c rest, Nat.toDigits 10 n = c :: rest ∧ '1' ≤ c ∧ c ≤ '9' := by
  induction n using Nat.strong_induction_on with
  | _ n ih =>
    obtain hlt | hge := Nat.lt_or_ge n 10
    · rw [Nat.toDigits_of_lt_base hlt]
      refine ⟨_, [], rfl, ?_⟩
      interval_cases n <;> decide
    · obtain ⟨c, rest, hdigits, hc⟩ := ih (n / 10) (by omega) (by omega)
      rw [Nat.toDigits_of_base_le (by decide) hge, hdigits]
      exact ⟨c, _, rfl, hc⟩

theorem isV1Id_repr {n : ℕ} (hn : 0 < n) (hle : n ≤ 2147483647) : isV1Id n.repr = true := by
  obtain ⟨c, rest, hdigits, hc⟩ := exists_toDigits n hn
  have hlist : n.repr.toList = c :: rest := Nat.toList_repr.trans hdigits
  have hrest : rest.all Char.isDigit = true := List.all_eq_true.mpr fun d hd =>
    isDigit_of_mem_repr (n := n) (hlist ▸ List.mem_cons_of_mem c hd)
  rw [isV1Id, hlist]
  dsimp only
  rw [hrest, number_repr, decide_eq_true hc.1, decide_eq_true hc.2, decide_eq_true hle]
  rfl

/-- Nothing is escaped in the text of a position, and it is short. -/
structure IsShort (position : ExecutionPosition) : Prop where
  id : ∀ c ∈ position.id.toList, JsonText.IsPlain c
  id_length : position.id.toList.length ≤ 36
  timestamp : ∀ c ∈ position.timestamp.toList, JsonText.IsPlain c
  timestamp_length : position.timestamp.toList.length = 24

theorem length_quote {s : String} (hs : ∀ c ∈ s.toList, JsonText.IsPlain c) :
    (JsonText.quote s).length = s.toList.length + 2 := by
  rw [JsonText.quote_plain hs, List.length_cons, List.length_append, List.length_singleton]

theorem IsShort.length_entryText {entry : Store × ExecutionPosition} (h : IsShort entry.2) :
    (entryText entry).length ≤ 100 := by
  have hid := length_quote h.id
  have htimestamp := length_quote h.timestamp
  have hname : (JsonText.quote entry.1.name).length = 4 := by cases entry.1 <;> rfl
  have hkeys : (JsonText.quote "id").length = 4 ∧ (JsonText.quote "timestamp").length = 11 :=
    ⟨rfl, rfl⟩
  have hlengths := h.id_length
  have hlengths' := h.timestamp_length
  unfold entryText positionText
  simp only [List.length_cons, List.length_append, List.length_nil]
  omega

/-- A cursor has two entries at most. -/
theorem length_cursorText (h : ∀ store, ∀ p ∈ cursor.get? store, IsShort p) :
    (cursorText cursor).length ≤ 380 := by
  have hentries : ∀ entry ∈ cursor.entries, (entryText entry).length ≤ 100 := fun entry hentry =>
    (h entry.1 entry.2 (get?_eq_some.mpr hentry)).length_entryText
  have hversion : (JsonText.quote "version").length = 9 := rfl
  have hsum : (cursor.entries.flatMap entryText).length ≤ 200 := by
    rw [List.length_flatMap]
    refine (List.sum_le_card_nsmul _ 100 fun n hn => ?_).trans ?_
    · obtain ⟨entry, hentry, rfl⟩ := List.mem_map.mp hn
      exact hentries entry hentry
    · have hlength := length_entries_le cursor
      rw [List.length_map]
      change cursor.entries.length * 100 ≤ 200
      omega
  unfold cursorText
  simp only [List.length_cons, List.length_append, List.length_nil, hversion]
  omega

theorem isPlain_of_isDigit {c : Char} (hc : c.isDigit = true) : JsonText.IsPlain c := by
  obtain ⟨h1, -⟩ := Bool.and_eq_true_iff.mp hc
  have hc' : 48 ≤ c.toNat := of_decide_eq_true h1
  refine ⟨?_, ?_, by omega⟩
  · rintro rfl
    exact absurd hc' (by decide)
  · rintro rfl
    exact absurd hc (by decide)

theorem isPlain_of_isHex {c : Char} (hc : isHex c = true) : JsonText.IsPlain c := by
  refine ⟨?_, ?_, ?_⟩
  · rintro rfl
    exact absurd hc (by decide)
  · rintro rfl
    exact absurd hc (by decide)
  · unfold isHex at hc
    simp only [Bool.or_eq_true, Bool.and_eq_true, decide_eq_true_eq] at hc
    obtain (hc | ⟨hc, -⟩) | ⟨hc, -⟩ := hc
    · exact (isPlain_of_isDigit hc).2.2
    · have hle : 97 ≤ c.toNat := hc
      omega
    · have hle : 65 ≤ c.toNat := hc
      omega

/-- The characters of a UUID are not escaped. -/
theorem isPlain_of_v2 {id : String} (h : isExecutionIdV2 id = true) :
    ∀ c ∈ id.toList, JsonText.IsPlain c := by
  intro c hc
  obtain ⟨p, hp, hmatch⟩ := all_of_isMatch h c hc
  have hp' : p = isHex ∨ p = oneOf ['-'] ∨ p = oneOf ['7'] ∨
      p = oneOf ['8', '9', 'a', 'b', 'A', 'B'] := by
    simp only [uuidV7Pattern, List.mem_append, List.mem_cons, List.mem_replicate, List.not_mem_nil,
      or_false] at hp
    tauto
  obtain rfl | rfl | rfl | rfl := hp'
  · exact isPlain_of_isHex hmatch
  · rw [oneOf, List.contains_iff_mem, List.mem_singleton] at hmatch
    exact hmatch ▸ ⟨by decide, by decide, by decide⟩
  · rw [oneOf, List.contains_iff_mem, List.mem_singleton] at hmatch
    exact hmatch ▸ isPlain_of_isDigit rfl
  · rw [oneOf, List.contains_iff_mem] at hmatch
    refine isPlain_of_isHex ?_
    simp only [List.mem_cons, List.not_mem_nil, or_false] at hmatch
    obtain rfl | rfl | rfl | rfl | rfl | rfl := hmatch <;> rfl

theorem isShort_positionOf {row : ExecutionSummary} (hrow : row ∈ stores.rows)
    (htime : FourDigits row.time) (hid : row ∈ stores.v1 → number row.id ≤ 2147483647) :
    IsShort (positionOf row) := by
  have htext : (positionOf row).timestamp.toList = IsoDate.isoText row.time :=
    String.toList_ofList
  have htimestamp : ∀ c ∈ (positionOf row).timestamp.toList, JsonText.IsPlain c := by
    intro c hc
    rw [htext] at hc
    obtain hc | hc := IsoDate.mem_isoText htime hc
    · exact isPlain_of_isDigit hc
    · simp only [List.mem_cons, List.not_mem_nil, or_false] at hc
      obtain rfl | rfl | rfl | rfl | rfl := hc <;> exact ⟨by decide, by decide, by decide⟩
  have hlength : (positionOf row).timestamp.toList.length = 24 := by
    rw [htext]
    exact IsoDate.length_isoText htime
  obtain hv1 | hv2 := Stores.mem_rows.mp hrow
  · obtain ⟨n, hn, heq⟩ := stores.v1_id row hv1
    have hle := hid hv1
    rw [heq, number_repr] at hle
    refine ⟨fun c hc => ?_, ?_, htimestamp, hlength⟩
    · rw [positionOf, heq] at hc
      exact isPlain_of_isDigit (isDigit_of_mem_repr hc)
    · have hdigits : (Nat.toDigits 10 n).length ≤ 36 :=
        (Nat.length_toDigits_le_iff (by decide) (by decide)).mpr (by omega)
      rw [positionOf, heq, Nat.toList_repr]
      exact hdigits
  · have hv2' := stores.v2_id row hv2
    exact ⟨isPlain_of_v2 hv2', (length_of_isMatch hv2').le, htimestamp, hlength⟩

section IsDocumented

variable (hz : z.IsDocumented instant) (htimes : ∀ row ∈ stores.rows, FourDigits row.time)
include hz htimes

/-- The rows of a cursor are valid, and its text is short. -/
theorem At.isValid (hids : ∀ row ∈ stores.v1, number row.id ≤ 2147483647)
    (hrows : stores.rows = front ++ rest) (hat : At front cursor) :
    (∀ p ∈ cursor.get? .v1, p.IsValid z isV1Id) ∧ (∀ p ∈ cursor.get? .v2, p.IsValid z z.uuid) ∧
      (cursorText cursor).length ≤ 380 := by
  have hlast : ∀ store p, cursor.get? store = some p →
      ∃ row ∈ stores.rows, inStore store row = true ∧ p = positionOf row := by
    intro store p hp
    rw [hat store] at hp
    obtain ⟨row, hrow, rfl⟩ := Option.map_eq_some_iff.mp hp
    obtain ⟨hmem, hstore⟩ := lastOf_mem hrow
    exact ⟨row, hrows ▸ List.mem_append_left rest hmem, hstore, rfl⟩
  refine ⟨fun p hp => ?_, fun p hp => ?_, length_cursorText fun store p hp => ?_⟩
  · obtain ⟨row, hrow, hstore, rfl⟩ := hlast .v1 p hp
    rw [inStore, Bool.not_eq_true'] at hstore
    have hv1 := (Stores.mem_v1_iff hrow).mpr hstore
    obtain ⟨n, hn, heq⟩ := stores.v1_id row hv1
    have hle := hids row hv1
    rw [heq, number_repr] at hle
    refine ⟨hz.datetime_iso row.time (htimes row hrow), ?_⟩
    rw [positionOf, heq]
    exact isV1Id_repr hn hle
  · obtain ⟨row, hrow, hstore, rfl⟩ := hlast .v2 p hp
    exact ⟨hz.datetime_iso row.time (htimes row hrow), hz.uuid_v7 row.id hstore⟩
  · obtain ⟨row, hrow, -, rfl⟩ := hlast store p hp
    exact isShort_positionOf hrow (htimes row hrow) fun hv1 => hids row hv1

/-- A cursor that was sent is received with its positions. -/
theorem At.received (hids : ∀ row ∈ stores.v1, number row.id ≤ 2147483647)
    (hrows : stores.rows = front ++ rest) (hat : At front cursor) :
    ∃ received, parseExecutionCursor z (some (encodeExecutionCursor cursor)) = .ok received ∧
      At front received := by
  obtain ⟨hv1, hv2, hlength⟩ := hat.isValid hz htimes hids hrows
  obtain ⟨received, hparse, hget⟩ := parse_encode hlength hz.double_one hv1 hv2
  exact ⟨received, hparse, fun store => (hget store).trans (hat store)⟩

theorem listPage_eq (hlimit : 1 ≤ limit) (hrows : stores.rows = front ++ rest)
    (hvalue : parseExecutionCursor z value = .ok cursor) (hat : At front cursor) :
    ∃ next, At (front ++ rest.take limit) next ∧ listPage z instant stores limit value =
      .ok ⟨rest.take limit,
        if limit < rest.length then some (encodeExecutionCursor next) else none⟩ := by
  obtain ⟨next, hnext, hpage⟩ := mergeExecutionPages_eq hz htimes hlimit hrows hat
  refine ⟨next, hnext, ?_⟩
  rw [listPage, hvalue]
  exact congrArg Except.ok hpage

end IsDocumented

/-- What is said of the pages from a cursor on. -/
structure Walked (z : Platform) (instant : String → ℤ) (stores : Stores) (limit n : ℕ)
    (value : Option String) (front rest : List ExecutionSummary) (pages : List MergedPage) :
    Prop where
  walk : walk z instant stores limit n value = some pages
  results : pages.flatMap MergedPage.results = rest
  cursors : ∀ i page next, pages[i]? = some page → page.nextCursor = some next →
    ∃ received, parseExecutionCursor z (some next) = .ok received ∧
      At (front ++ (pages.take (i + 1)).flatMap MergedPage.results) received

theorem Walked.last (n : ℕ) (hlist : listPage z instant stores limit value = .ok ⟨rest, none⟩) :
    Walked z instant stores limit (n + 1) value front rest [⟨rest, none⟩] where
  walk := by rw [ExecutionList.walk, hlist]
  results := List.append_nil rest
  cursors i page next hpage hnext := by
    have hmem := List.mem_of_getElem? hpage
    rw [List.mem_singleton.mp hmem] at hnext
    cases hnext

/-- A page that others follow. -/
theorem Walked.cons {n : ℕ} {next : String} {received : ExecutionCursor}
    {page : List ExecutionSummary} {pages : List MergedPage}
    (hlist : listPage z instant stores limit value = .ok ⟨page, some next⟩)
    (hreceived : parseExecutionCursor z (some next) = .ok received)
    (hat : At (front ++ page) received)
    (h : Walked z instant stores limit n (some next) (front ++ page) rest pages) :
    Walked z instant stores limit (n + 1) value front (page ++ rest)
      (⟨page, some next⟩ :: pages) where
  walk := by
    rw [ExecutionList.walk, hlist]
    exact congrArg (Option.map _) h.walk
  results := by rw [List.flatMap_cons, h.results]
  cursors i page' next' hpage hnext := by
    cases i with
    | zero =>
      cases hpage
      cases hnext
      refine ⟨received, hreceived, ?_⟩
      rwa [List.take_succ_cons, List.take_zero, List.flatMap_cons, List.flatMap_nil,
        List.append_nil]
    | succ i =>
      obtain ⟨received, hreceived, hat⟩ := h.cursors i page' next' hpage hnext
      refine ⟨received, hreceived, ?_⟩
      rwa [List.take_succ_cons, List.flatMap_cons, ← List.append_assoc]

/-- **The pages of the rest of the list**, from a cursor that holds the rows before it. -/
theorem exists_walked (hz : z.IsDocumented instant)
    (htimes : ∀ row ∈ stores.rows, FourDigits row.time)
    (hids : ∀ row ∈ stores.v1, number row.id ≤ 2147483647) (hlimit : 1 ≤ limit) (n : ℕ)
    (hn : rest.length ≤ n) (hrows : stores.rows = front ++ rest)
    (hvalue : parseExecutionCursor z value = .ok cursor) (hat : At front cursor) :
    ∃ pages, Walked z instant stores limit (n + 1) value front rest pages := by
  induction n generalizing front rest cursor value with
  | zero =>
    obtain rfl := List.eq_nil_of_length_eq_zero (Nat.le_zero.mp hn)
    obtain ⟨next, -, hlist⟩ := listPage_eq hz htimes hlimit hrows hvalue hat
    rw [List.length_nil, if_neg (Nat.not_lt_zero limit), List.take_nil] at hlist
    exact ⟨_, .last 0 hlist⟩
  | succ n ih =>
    obtain ⟨next, hnext, hlist⟩ := listPage_eq hz htimes hlimit hrows hvalue hat
    by_cases hmore : limit < rest.length
    · rw [if_pos hmore] at hlist
      -- the next page starts after the rows of this one
      have hrows' : stores.rows = (front ++ rest.take limit) ++ rest.drop limit := by
        rw [List.append_assoc, List.take_append_drop, hrows]
      obtain ⟨received, hreceived, hat'⟩ := hnext.received hz htimes hids hrows'
      have hdrop : (rest.drop limit).length ≤ n := by
        rw [List.length_drop]
        omega
      obtain ⟨pages, hpages⟩ := ih hdrop hrows' hreceived hat'
      have hwalked := hpages.cons hlist hreceived hat'
      rw [List.take_append_drop] at hwalked
      exact ⟨_, hwalked⟩
    · rw [if_neg hmore, List.take_of_length_le (not_lt.mp hmore)] at hlist
      exact ⟨_, .last (n + 1) hlist⟩

/-- **The pages of both stores**: from the first page to the last one, every row is listed once and
in order, and every cursor is accepted and has the positions of the rows so far. -/
theorem walk_pages (hz : z.IsDocumented instant)
    (htimes : ∀ row ∈ stores.v1 ++ stores.v2, FourDigits row.time)
    (hids : ∀ row ∈ stores.v1, number row.id ≤ 2147483647) (hlimit : 1 ≤ limit) :
    ∃ pages, walk z instant stores limit ((stores.v1 ++ stores.v2).length + 1) none = some pages ∧
      (pages.flatMap MergedPage.results).Perm (stores.v1 ++ stores.v2) ∧
      (pages.flatMap MergedPage.results).Pairwise (compareExecutionListItems · · < 0) ∧
      ∀ i page next, pages[i]? = some page → page.nextCursor = some next →
        ∃ received, parseExecutionCursor z (some next) = .ok received ∧ ∀ store,
          received.get? store =
            (lastOf store ((pages.take (i + 1)).flatMap MergedPage.results)).map positionOf := by
  have htimes' : ∀ row ∈ stores.rows, FourDigits row.time := fun row hrow =>
    htimes row (stores.rows_perm.mem_iff.mp hrow)
  have hfirst : parseExecutionCursor z none = .ok .empty := rfl
  obtain ⟨pages, hwalk, hresults, hcursors⟩ := exists_walked hz htimes' hids hlimit
    (stores.v1 ++ stores.v2).length stores.rows_perm.length_eq.le (List.nil_append _).symm
    hfirst At.empty
  refine ⟨pages, hwalk, ?_, ?_, hcursors⟩
  · rw [hresults]
    exact stores.rows_perm
  · rw [hresults]
    exact stores.rows_strict

end Pages

/-! ## A platform and two rows -/

/-- A platform that validates the texts that `toISOString` makes of years of four digits, and UUIDs
of version 7. -/
def plainPlatform : Platform where
  datetime text := (IsoDate.ofISOString text).isSome
  uuid := isExecutionIdV2
  double := id
  malformed _ := ""

def plainInstant (text : String) : ℤ := (IsoDate.ofISOString text).getD 0

theorem plainPlatform_isDocumented : plainPlatform.IsDocumented plainInstant where
  datetime_iso t ht := by
    unfold plainPlatform
    dsimp only
    rw [IsoDate.ofISOString_toISOString ht, Option.isSome_some]
  uuid_v7 _ hid := hid
  double_one := rfl
  instant_iso t ht := by
    rw [plainInstant, IsoDate.ofISOString_toISOString ht, Option.getD_some]

def v1Row (n : ℕ) (t : ℤ) : ExecutionSummary := ⟨n.repr, some t, t⟩

def v2Row (t : ℤ) : ExecutionSummary := ⟨"01992380-0000-7000-8000-000000000001", some t, t⟩

theorem isExecutionIdV2_v2Row (t : ℤ) : isExecutionIdV2 (v2Row t).id = true := by
  have hid : isExecutionIdV2 "01992380-0000-7000-8000-000000000001" = true := by decide +kernel
  exact hid

def pairOf {n : ℕ} (hn : 0 < n) (t t' : ℤ) : Stores where
  v1 := [v1Row n t]
  v2 := [v2Row t']
  v1_id row hrow := ⟨n, hn, List.mem_singleton.mp hrow ▸ rfl⟩
  v2_id row hrow := List.mem_singleton.mp hrow ▸ isExecutionIdV2_v2Row t'
  v1_nodup := List.nodup_singleton _
  v2_nodup := List.nodup_singleton _
  agree a ha b hb h := by
    rw [List.mem_singleton.mp ha, List.mem_singleton.mp hb] at h
    exact absurd h (lt_irrefl _)

/-- Two rows of one time, one on a page. -/
theorem walk_pages_pair : ∃ pages,
    walk plainPlatform plainInstant (pairOf (Nat.succ_pos 9) 1788782400000 1788782400000) 1 3 none =
      some pages ∧
    (pages.flatMap MergedPage.results).Perm [v1Row 10 1788782400000, v2Row 1788782400000] := by
  have htime : FourDigits 1788782400000 := ⟨by decide, by decide⟩
  obtain ⟨pages, hwalk, hresults, -⟩ := @walk_pages plainPlatform plainInstant
    (pairOf (Nat.succ_pos 9) 1788782400000 1788782400000) 1 plainPlatform_isDocumented
    (fun row hrow => by
      obtain rfl | hrow := List.mem_cons.mp hrow
      · exact htime
      · exact List.mem_singleton.mp hrow ▸ htime)
    (fun row hrow => by
      rw [List.mem_singleton.mp hrow, v1Row, number_repr]
      decide) le_rfl
  exact ⟨pages, hwalk, hresults⟩

/-- The first page of two rows, when the one of engine 1.0 is the later one. -/
theorem listPage_pairOf {n : ℕ} (hn : 0 < n) {t t' : ℤ} (ht : t' < t) :
    listPage plainPlatform plainInstant (pairOf hn t t') 1 none = .ok ⟨[v1Row n t],
      some (encodeExecutionCursor (empty.set .v1 (positionOf (v1Row n t))))⟩ := by
  have hparse : parseExecutionCursor plainPlatform none = .ok .empty := rfl
  have hv1 : v1Page (pairOf hn t t') 1 .empty = ⟨[v1Row n t], false⟩ := by
    rw [v1Page, pairOf, List.mergeSort_singleton]
    rfl
  have hv2 : v2Page plainInstant (pairOf hn t t') 1 .empty = ⟨[v2Row t'], false⟩ := by
    rw [v2Page, pairOf, List.mergeSort_singleton]
    rfl
  have hkind : isExecutionIdV2 (v1Row n t).id = false :=
    (@Stores.mem_v1_iff (pairOf hn t t') _ (Stores.mem_rows.mpr
      (.inl (List.mem_singleton_self _)))).mp (List.mem_singleton_self _)
  have hsort : [v1Row n t, v2Row t'].mergeSort (fun a b => compareExecutionListItems a b ≤ 0) =
      [v1Row n t, v2Row t'] := by
    refine List.mergeSort_of_pairwise (List.pairwise_pair.mpr (decide_eq_true ?_))
    exact compare_le_iff.mpr (.inl ht)
  rw [listPage, hparse]
  change Except.ok (mergeExecutionPages _ 1 (some .empty)) = _
  rw [hv1, hv2, mergeExecutionPages]
  simp only [List.flatMap_cons, List.flatMap_nil, List.append_nil, List.cons_append,
    List.nil_append, hsort]
  simp [hkind]

/-- **Cursors that are not accepted**: the text of a year after 9999 has a sign, and an identifier
may exceed the largest one of 32 bits. -/
theorem not_accepted :
    (∃ page next, listPage plainPlatform plainInstant
        (pairOf (Nat.succ_pos 9) 253402300800000 1788782400000) 1 none = .ok page ∧
      page.nextCursor = some next ∧
      parseExecutionCursor plainPlatform (some next) = .error invalidCursor) ∧
    ∃ page next, listPage plainPlatform plainInstant
        (pairOf (Nat.succ_pos 2147483647) 1788782400001 1788782400000) 1 none = .ok page ∧
      page.nextCursor = some next ∧
      parseExecutionCursor plainPlatform (some next) = .error invalidCursor := by
  refine ⟨⟨_, _, listPage_pairOf _ (by decide), rfl, ?_⟩,
    ⟨_, _, listPage_pairOf _ (by decide), rfl, ?_⟩⟩
  · have hrefused : (parseCursor plainPlatform (.object (cursorFields
        (empty.set .v1 (positionOf (v1Row 10 253402300800000)))))).isNone = true := by
      decide +kernel
    rw [parse_encode_eq _ (by decide +kernel), Option.isNone_iff_eq_none.mp hrefused]
  · have hrefused : (parseCursor plainPlatform (.object (cursorFields
        (empty.set .v1 (positionOf (v1Row 2147483648 1788782400001)))))).isNone =
          true := by
      decide +kernel
    rw [parse_encode_eq _ (by decide +kernel), Option.isNone_iff_eq_none.mp hrefused]

end N8n.ExecutionList
