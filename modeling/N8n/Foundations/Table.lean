import Mathlib.Data.List.Pairwise
import Mathlib.Tactic.ByContra
import Mathlib.Tactic.SplitIfs

/-!
# Tables

A database table: its rows, no two of which clash under its unique indexes. A statement computes the
rows it would leave and is refused as a whole when two of them clash.

## Main definitions

* `Table`: rows without a clash
* `Table.write`: what a statement does, or nothing when a unique index refuses it
* `Table.updateWhere`, `Table.deleteWhere`: the rows after an `UPDATE` or a `DELETE`
* `Table.update`, `Table.delete`: the statements that no unique index can refuse

## Main results

* `Table.eq_of_clash`: two rows of a table that clash are the same row
-/

universe u

variable {ρ : Type u}

structure Table (ρ : Type u) (clash : ρ → ρ → Prop) where
  rows : List ρ
  noClash : rows.Pairwise fun r r' => ¬ clash r r'

namespace Table

/-! ## The rows a statement would leave -/

section Rows

/-- The rows after `UPDATE … SET f WHERE p`. -/
def updateWhere (p : ρ → Bool) (f : ρ → ρ) (rows : List ρ) : List ρ :=
  rows.map fun r => if p r then f r else r

/-- The rows after `DELETE … WHERE p`. -/
def deleteWhere (p : ρ → Bool) (rows : List ρ) : List ρ := rows.filter fun r => !p r

variable {p : ρ → Bool} {f : ρ → ρ} {rows : List ρ} {r : ρ}

theorem mem_updateWhere :
    r ∈ updateWhere p f rows ↔ (∃ r' ∈ rows, p r' ∧ f r' = r) ∨ (r ∈ rows ∧ p r = false) := by
  unfold updateWhere
  rw [List.mem_map]
  constructor
  · rintro ⟨r', hr', rfl⟩
    split_ifs with hp
    · exact .inl ⟨r', hr', hp, rfl⟩
    · exact .inr ⟨hr', by simpa using hp⟩
  · rintro (⟨r', hr', hp, rfl⟩ | ⟨hr, hp⟩)
    · exact ⟨r', hr', if_pos hp⟩
    · exact ⟨r, hr, by simp [hp]⟩

theorem mem_deleteWhere : r ∈ deleteWhere p rows ↔ r ∈ rows ∧ p r = false := by
  simp [deleteWhere]

/-- A statement whose condition no row meets changes nothing. -/
theorem updateWhere_of_forall (h : ∀ r ∈ rows, p r = false) : updateWhere p f rows = rows := by
  unfold updateWhere
  rw [List.map_congr_left (g := id), List.map_id]
  intro r hr
  simp [h r hr]

/-- The rows that an update changed, read by a condition that tells them from the others. -/
theorem filter_updateWhere {q : ρ → Bool} (h : ∀ r ∈ rows, q (if p r then f r else r) = p r) :
    (updateWhere p f rows).filter q = (rows.filter p).map f := by
  unfold updateWhere
  have hfilter : rows.filter (q ∘ fun r => if p r then f r else r) = rows.filter p :=
    List.filter_congr h
  rw [List.filter_map, hfilter]
  refine List.map_congr_left ?_
  intro r hr
  exact if_pos (List.mem_filter.mp hr).2

end Rows

variable {clash : ρ → ρ → Prop} {table : Table ρ clash}

def empty : Table ρ clash := ⟨[], List.Pairwise.nil⟩

theorem eq_of_clash [Std.Symm clash] {r r' : ρ} (hr : r ∈ table.rows) (hr' : r' ∈ table.rows)
    (h : clash r r') : r = r' := by
  have : Std.Symm fun r r' => ¬ clash r r' := ⟨fun a b hab hba => hab (Std.Symm.symm b a hba)⟩
  by_contra hne
  exact table.noClash.forall hr hr' hne h

/-- Of rows that all clash with each other a table has at most one. -/
theorem length_filter_le_one {p : ρ → Bool} (h : ∀ r r', p r = true → p r' = true → clash r r') :
    (table.rows.filter p).length ≤ 1 := by
  have hfilter := table.noClash.filter p
  match hrows : table.rows.filter p with
  | [] => exact Nat.zero_le 1
  | [_] => exact Nat.le_refl 1
  | r :: r' :: rest =>
    have hp : ∀ q ∈ r :: r' :: rest, p q = true := by
      intro q hq
      rw [← hrows] at hq
      exact (List.mem_filter.mp hq).2
    rw [hrows] at hfilter
    exact absurd (h r r' (hp r (by simp)) (hp r' (by simp)))
      (List.rel_of_pairwise_cons hfilter (by simp))

section Write

variable [DecidableRel clash]

/-- Leave the rows, unless two of them clash. -/
def write (rows : List ρ) : Option (Table ρ clash) :=
  if h : rows.Pairwise fun r r' => ¬ clash r r' then some ⟨rows, h⟩ else none

variable {rows : List ρ}

@[simp] theorem write_eq_some : write rows = some table ↔ table.rows = rows := by
  unfold write
  split_ifs with h
  · constructor
    · intro he
      cases he
      rfl
    · rintro rfl
      rfl
  · refine ⟨by simp, ?_⟩
    rintro rfl
    exact absurd table.noClash h

/-- A deletion goes through. -/
def delete (table : Table ρ clash) (p : ρ → Bool) : Table ρ clash where
  rows := deleteWhere p table.rows
  noClash := table.noClash.filter _

end Write

/-! ## Updates that leave the keys alone -/

section Update

variable {p : ρ → Bool} {f : ρ → ρ}

/-- `UPDATE … SET f WHERE p` of columns that no unique index covers. -/
def update (table : Table ρ clash) (p : ρ → Bool) (f : ρ → ρ)
    (hf : ∀ r r', (clash (f r) r' ↔ clash r r') ∧ (clash r (f r') ↔ clash r r')) :
    Table ρ clash where
  rows := updateWhere p f table.rows
  noClash := by
    unfold updateWhere
    rw [List.pairwise_map]
    refine table.noClash.imp fun {r r'} h => ?_
    split_ifs
    · rwa [(hf r (f r')).1, (hf r r').2]
    · rwa [(hf r r').1]
    · rwa [(hf r r').2]
    · exact h

theorem eq_of_rows {table' : Table ρ clash} (h : table.rows = table'.rows) : table = table' := by
  cases table
  cases table'
  cases h
  rfl

end Update

end Table
