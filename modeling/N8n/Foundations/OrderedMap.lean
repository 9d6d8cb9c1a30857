import Mathlib.Algebra.BigOperators.Group.List.Basic
import Mathlib.Data.List.Sort
import Mathlib.Tactic.Abel

/-!
# Maps that keep the order of their keys

A finite map that lists its keys in the order in which they were first set. Setting a key that is
present keeps its place, and a key that is deleted and set again goes to the end.

## Main definitions

* `OrderedMap`: the maps, with their keys distinct
* `OrderedMap.get?`, `OrderedMap.set`, `OrderedMap.delete`: the operations
* `OrderedMap.deleteWhere`: delete by value
* `OrderedMap.Keyed`, `OrderedMap.insertAll`: maps whose values are stored under their own keys
* `OrderedMap.total`: the sum of a measure over the entries

## Main results

* `OrderedMap.get?_set`, `OrderedMap.get?_delete`: the laws of a map
* `OrderedMap.Keyed.insertAll_complete_iff`: nothing is lost exactly when keys do not clash
* `OrderedMap.total_set`, `OrderedMap.total_delete`: what an operation does to a sum
-/

universe u v

variable {κ : Type u} {ν : Type v}

/-- A map from `κ` to `ν` with its entries in order. -/
structure OrderedMap (κ : Type u) (ν : Type v) where
  entries : List (κ × ν)
  nodup : (entries.map Prod.fst).Nodup

namespace OrderedMap

/-! ## Lists of entries -/

namespace Entries

variable [DecidableEq κ] (k : κ)

def lookup : List (κ × ν) → Option ν
  | [] => none
  | (k', v) :: es => if k' = k then some v else lookup es

def upsert (v : ν) : List (κ × ν) → List (κ × ν)
  | [] => [(k, v)]
  | (k', v') :: es => if k' = k then (k, v) :: es else (k', v') :: upsert v es

def remove : List (κ × ν) → List (κ × ν)
  | [] => []
  | (k', v') :: es => if k' = k then es else (k', v') :: remove es

attribute [grind =] lookup upsert remove

variable {k} {k' : κ} {v : ν} {es : List (κ × ν)}

theorem keys_upsert : (upsert k v es).map Prod.fst =
    if k ∈ es.map Prod.fst then es.map Prod.fst else es.map Prod.fst ++ [k] := by
  induction es with
  | nil => rfl
  | cons e es ih =>
    obtain ⟨k₀, v₀⟩ := e
    by_cases h : k₀ = k
    · simp [upsert, h]
    · simp only [upsert, h, if_false, List.map_cons, ih, List.mem_cons, Ne.symm h, false_or]
      split_ifs <;> rfl

theorem keys_remove : (remove k es).map Prod.fst = (es.map Prod.fst).erase k := by
  induction es with
  | nil => rfl
  | cons e es ih =>
    obtain ⟨k₀, v₀⟩ := e
    by_cases h : k₀ = k
    · simp [remove, h]
    · simp [remove, h, ih, List.erase_cons_tail]

theorem lookup_upsert : lookup k' (upsert k v es) = if k' = k then some v else lookup k' es := by
  induction es with
  | nil => simp [upsert, lookup, eq_comm]
  | cons e es ih =>
    obtain ⟨k₀, v₀⟩ := e
    by_cases h : k₀ = k
    · subst h
      by_cases hk : k₀ = k'
      · simp [upsert, lookup, hk]
      · simp [upsert, lookup, hk, Ne.symm hk]
    · by_cases hk : k₀ = k'
      · subst hk
        simp [upsert, lookup, h]
      · simp [upsert, lookup, h, hk, ih]

theorem upsert_upsert {v' : ν} : upsert k v' (upsert k v es) = upsert k v' es := by
  induction es with
  | nil => simp [upsert]
  | cons e es ih =>
    obtain ⟨k₀, v₀⟩ := e
    by_cases h : k₀ = k
    · simp [upsert, h]
    · simp [upsert, h, ih]

theorem remove_upsert : remove k (upsert k v es) = remove k es := by
  induction es with
  | nil => simp [upsert, remove]
  | cons e es ih =>
    obtain ⟨k₀, v₀⟩ := e
    by_cases h : k₀ = k
    · simp [upsert, remove, h]
    · simp [upsert, remove, h, ih]

section MapValues

variable {ω : Type*} {f : ν → ω}

theorem map_upsert : (upsert k v es).map (fun e => (e.1, f e.2)) =
    upsert k (f v) (es.map fun e => (e.1, f e.2)) := by
  induction es with
  | nil => rfl
  | cons e es ih =>
    obtain ⟨k₀, v₀⟩ := e
    by_cases h : k₀ = k
    · simp [upsert, h]
    · simp [upsert, h, ih]

theorem map_remove : (remove k es).map (fun e => (e.1, f e.2)) =
    remove k (es.map fun e => (e.1, f e.2)) := by
  induction es with
  | nil => rfl
  | cons e es ih =>
    obtain ⟨k₀, v₀⟩ := e
    by_cases h : k₀ = k
    · simp [remove, h]
    · simp [remove, h, ih]

end MapValues

theorem upsert_of_fresh (h : k ∉ es.map Prod.fst) : upsert k v es = es ++ [(k, v)] := by
  induction es with
  | nil => rfl
  | cons e es ih =>
    obtain ⟨k₀, v₀⟩ := e
    obtain ⟨hne, h⟩ := not_or.mp (fun hin => h (List.mem_cons.mpr hin))
    rw [upsert, if_neg (Ne.symm hne), ih h, List.cons_append]

theorem lookup_eq_none : lookup k es = none ↔ k ∉ es.map Prod.fst := by
  induction es with
  | nil => simp [lookup]
  | cons e es ih =>
    obtain ⟨k₀, v₀⟩ := e
    by_cases h : k₀ = k
    · simp [lookup, h]
    · simp [lookup, h, ih, Ne.symm h]

theorem lookup_remove (hd : (es.map Prod.fst).Nodup) :
    lookup k' (remove k es) = if k' = k then none else lookup k' es := by
  induction es with
  | nil => simp [remove, lookup]
  | cons e es ih =>
    obtain ⟨k₀, v₀⟩ := e
    obtain ⟨hnew, hd⟩ := List.nodup_cons.mp hd
    by_cases h : k₀ = k
    · subst h
      by_cases hk : k' = k₀
      · subst hk
        simpa [remove] using lookup_eq_none.mpr hnew
      · simp [remove, lookup, hk, Ne.symm hk]
    · by_cases hk : k₀ = k'
      · subst hk
        simp [remove, lookup, h]
      · simp [remove, lookup, h, hk, ih hd]

theorem lookup_eq_some (hd : (es.map Prod.fst).Nodup) : lookup k es = some v ↔ (k, v) ∈ es := by
  induction es with
  | nil => simp [lookup]
  | cons e es ih =>
    obtain ⟨k₀, v₀⟩ := e
    obtain ⟨hnew, hd⟩ := List.nodup_cons.mp hd
    by_cases h : k₀ = k
    · subst h
      have habsent : (k₀, v) ∉ es := fun hin => hnew (List.mem_map.mpr ⟨_, hin, rfl⟩)
      simp [lookup, habsent, eq_comm]
    · simp [lookup, h, ih hd, Ne.symm h]

theorem remove_eq_filter (hd : (es.map Prod.fst).Nodup) :
    remove k es = es.filter fun e => e.1 ≠ k := by
  induction es with
  | nil => rfl
  | cons e es ih =>
    obtain ⟨k₀, v₀⟩ := e
    obtain ⟨hnew, hd⟩ := List.nodup_cons.mp hd
    by_cases h : k₀ = k
    · subst h
      have hkeep : es.filter (fun e => e.1 ≠ k₀) = es := by
        refine List.filter_eq_self.mpr fun e he => decide_eq_true fun heq => ?_
        exact hnew (List.mem_map.mpr ⟨e, he, heq⟩)
      rw [remove, if_pos rfl, List.filter_cons_of_neg (by simp), hkeep]
    · rw [remove, if_neg h, List.filter_cons_of_pos (by simpa using h), ih hd]

section Sums

variable {M : Type*} [AddCommMonoid M] (f : κ → ν → M)

theorem sum_upsert :
    ((upsert k v es).map fun e => f e.1 e.2).sum + ((lookup k es).elim 0 (f k)) =
      (es.map fun e => f e.1 e.2).sum + f k v := by
  induction es with
  | nil => simp [upsert, lookup]
  | cons e es ih =>
    obtain ⟨k₀, v₀⟩ := e
    by_cases h : k₀ = k
    · subst h
      simp [upsert, lookup]
      abel
    · simp only [upsert, lookup, h, if_false, List.map_cons, List.sum_cons]
      rw [add_assoc, ih, add_assoc]

theorem sum_remove :
    ((remove k es).map fun e => f e.1 e.2).sum + ((lookup k es).elim 0 (f k)) =
      (es.map fun e => f e.1 e.2).sum := by
  induction es with
  | nil => simp [remove, lookup]
  | cons e es ih =>
    obtain ⟨k₀, v₀⟩ := e
    by_cases h : k₀ = k
    · subst h
      simp [remove, lookup, add_comm]
    · simp only [remove, lookup, h, if_false, List.map_cons, List.sum_cons]
      rw [add_assoc, ih]

end Sums

end Entries

/-! ## The operations -/

def empty : OrderedMap κ ν := ⟨[], List.nodup_nil⟩

def keys (m : OrderedMap κ ν) : List κ := m.entries.map Prod.fst

def values (m : OrderedMap κ ν) : List ν := m.entries.map Prod.snd

def size (m : OrderedMap κ ν) : ℕ := m.entries.length

section Total

variable {M : Type*} [AddCommMonoid M] (f : κ → ν → M)

def total (m : OrderedMap κ ν) : M := (m.entries.map fun e => f e.1 e.2).sum

@[simp] theorem total_empty : (empty : OrderedMap κ ν).total f = 0 := rfl

theorem total_congr {f f' : κ → ν → M} {m : OrderedMap κ ν} (h : ∀ k v, f k v = f' k v) :
    m.total f = m.total f' := by
  have heq : f = f' := funext fun k => funext fun v => h k v
  rw [heq]

theorem total_of_size_eq_zero {m : OrderedMap κ ν} (h : m.size = 0) : m.total f = 0 := by
  rw [total, List.length_eq_zero_iff.mp h]
  rfl

end Total

section Operations

variable [DecidableEq κ]

def get? (m : OrderedMap κ ν) (k : κ) : Option ν := Entries.lookup k m.entries

def set (m : OrderedMap κ ν) (k : κ) (v : ν) : OrderedMap κ ν where
  entries := Entries.upsert k v m.entries
  nodup := by
    rw [Entries.keys_upsert]
    split_ifs with h
    · exact m.nodup
    · exact m.nodup.append (List.nodup_singleton k) (by simpa using h)

def delete (m : OrderedMap κ ν) (k : κ) : OrderedMap κ ν where
  entries := Entries.remove k m.entries
  nodup := by
    rw [Entries.keys_remove]
    exact m.nodup.erase k

variable {m : OrderedMap κ ν} {k k' : κ} {v : ν}

omit [DecidableEq κ] in
theorem eq_of_entries {m m' : OrderedMap κ ν} (h : m.entries = m'.entries) : m = m' := by
  cases m
  cases m'
  cases h
  rfl

/-- The last of two values set under a key stays. -/
@[simp] theorem set_set {v' : ν} : (m.set k v).set k v' = m.set k v' :=
  eq_of_entries Entries.upsert_upsert

@[simp] theorem delete_set : (m.set k v).delete k = m.delete k :=
  eq_of_entries Entries.remove_upsert

@[simp] theorem get?_empty : (empty : OrderedMap κ ν).get? k = none := rfl

theorem get?_set : (m.set k v).get? k' = if k' = k then some v else m.get? k' :=
  Entries.lookup_upsert

@[simp] theorem get?_set_self : (m.set k v).get? k = some v := by simp [get?_set]

theorem get?_set_of_ne (h : k' ≠ k) : (m.set k v).get? k' = m.get? k' := by simp [get?_set, h]

theorem entries_delete (m : OrderedMap κ ν) (k : κ) :
    (m.delete k).entries = m.entries.filter fun e => e.1 ≠ k := Entries.remove_eq_filter m.nodup

theorem get?_delete : (m.delete k).get? k' = if k' = k then none else m.get? k' :=
  Entries.lookup_remove m.nodup

@[simp] theorem get?_delete_self : (m.delete k).get? k = none := by simp [get?_delete]

theorem get?_delete_of_ne (h : k' ≠ k) : (m.delete k).get? k' = m.get? k' := by
  simp [get?_delete, h]

theorem get?_eq_none : m.get? k = none ↔ k ∉ m.keys := Entries.lookup_eq_none

theorem get?_eq_some : m.get? k = some v ↔ (k, v) ∈ m.entries := Entries.lookup_eq_some m.nodup

theorem mem_keys : k ∈ m.keys ↔ ∃ v, m.get? k = some v := by
  rw [← not_iff_not, ← get?_eq_none, Option.eq_none_iff_forall_ne_some, not_exists]

theorem keys_set : (m.set k v).keys = if k ∈ m.keys then m.keys else m.keys ++ [k] :=
  Entries.keys_upsert

theorem mem_keys_set {k' : κ} : k' ∈ (m.set k v).keys ↔ k' = k ∨ k' ∈ m.keys := by
  simp only [mem_keys, get?_set]
  by_cases h : k' = k <;> simp [h]

theorem entries_set_of_fresh (h : k ∉ m.keys) : (m.set k v).entries = m.entries ++ [(k, v)] :=
  Entries.upsert_of_fresh h

theorem mem_values_set {v' : ν} (h : v' ∈ (m.set k v).values) : v' = v ∨ v' ∈ m.values := by
  obtain ⟨⟨k', w⟩, he, rfl⟩ := List.mem_map.mp h
  have hget := get?_eq_some.mpr he
  rw [get?_set] at hget
  split_ifs at hget
  · exact .inl (Option.some.inj hget).symm
  · exact .inr (List.mem_map.mpr ⟨_, get?_eq_some.mp hget, rfl⟩)

theorem keys_delete : (m.delete k).keys = m.keys.erase k := Entries.keys_remove

theorem size_set_of_fresh (h : m.get? k = none) : (m.set k v).size = m.size + 1 := by
  show (Entries.upsert k v m.entries).length = m.entries.length + 1
  rw [Entries.upsert_of_fresh (Entries.lookup_eq_none.mp h), List.length_append]
  rfl

theorem size_delete_le (m : OrderedMap κ ν) (k : κ) : (m.delete k).size ≤ m.size := by
  have h : (m.delete k).keys.length ≤ m.keys.length := by
    rw [keys_delete]
    exact List.length_erase_le
  simpa [keys, size] using h

theorem size_delete_lt (h : m.get? k = some v) : (m.delete k).size < m.size := by
  have hmem : k ∈ m.keys := mem_keys.mpr ⟨v, h⟩
  have hlt : (m.delete k).keys.length < m.keys.length := by
    rw [keys_delete, List.length_erase_of_mem hmem]
    exact Nat.sub_one_lt_of_lt (List.length_pos_of_mem hmem)
  simpa [keys, size] using hlt

theorem mem_values : v ∈ m.values ↔ ∃ k, m.get? k = some v := by
  simp only [values, List.mem_map, get?_eq_some, Prod.exists, exists_eq_right]

/-! ## Changing the values -/

section MapValues

variable {ω : Type*} {f : ν → ω}

def mapValues (f : ν → ω) (m : OrderedMap κ ν) : OrderedMap κ ω where
  entries := m.entries.map fun e => (e.1, f e.2)
  nodup := by
    rw [List.map_map]
    exact m.nodup

omit [DecidableEq κ] in
@[simp] theorem keys_mapValues : (m.mapValues f).keys = m.keys := by
  rw [keys, mapValues, List.map_map]
  rfl

omit [DecidableEq κ] in
@[simp] theorem values_mapValues : (m.mapValues f).values = m.values.map f := by
  rw [values, mapValues, values, List.map_map, List.map_map]
  rfl

omit [DecidableEq κ] in
@[simp] theorem size_mapValues : (m.mapValues f).size = m.size := List.length_map _

omit [DecidableEq κ] in
theorem total_mapValues {M : Type*} [AddCommMonoid M] {g : κ → ω → M} :
    (m.mapValues f).total g = m.total fun k v => g k (f v) := by
  rw [total, mapValues, List.map_map]
  rfl

theorem mapValues_set : (m.set k v).mapValues f = (m.mapValues f).set k (f v) :=
  eq_of_entries Entries.map_upsert

theorem mapValues_delete : (m.delete k).mapValues f = (m.mapValues f).delete k :=
  eq_of_entries Entries.map_remove

@[simp] theorem get?_mapValues : (m.mapValues f).get? k = (m.get? k).map f := by
  apply Option.ext
  intro w
  rw [get?_eq_some, Option.map_eq_some_iff, mapValues, List.mem_map]
  constructor
  · rintro ⟨⟨k', v⟩, hin, heq⟩
    cases heq
    exact ⟨v, get?_eq_some.mpr hin, rfl⟩
  · rintro ⟨v, hv, rfl⟩
    exact ⟨(k, v), get?_eq_some.mp hv, rfl⟩

end MapValues

/-! ## Deleting by value -/

/-- Delete every entry whose value satisfies `p`. -/
def deleteWhere (m : OrderedMap κ ν) (p : ν → Bool) : OrderedMap κ ν where
  entries := m.entries.filter fun e => ! p e.2
  nodup := m.nodup.sublist (List.filter_sublist.map _)

theorem get?_deleteWhere {p : ν → Bool} :
    (m.deleteWhere p).get? k = (m.get? k).filter fun v => ! p v := by
  apply Option.ext
  intro v
  rw [get?_eq_some, Option.filter_eq_some_iff, get?_eq_some, deleteWhere, List.mem_filter]

theorem mem_values_deleteWhere {p : ν → Bool} :
    v ∈ (m.deleteWhere p).values ↔ v ∈ m.values ∧ p v = false := by
  simp only [mem_values, get?_deleteWhere, Option.filter_eq_some_iff, Bool.not_eq_true',
    exists_and_right]

/-! ## Values stored under their own keys -/

section Keyed

variable {key : ν → κ} {vs : List ν}

/-- Every value is stored under its own key. -/
def Keyed (key : ν → κ) (m : OrderedMap κ ν) : Prop :=
  ∀ k v, m.get? k = some v → key v = k

/-- Store values under their keys, one after the other. -/
def insertAll (key : ν → κ) (m : OrderedMap κ ν) (vs : List ν) : OrderedMap κ ν :=
  vs.foldl (fun m v => m.set (key v) v) m

/-- Of the values with one key the last one stays. -/
theorem get?_insertAll : (insertAll key m vs).get? k =
    (vs.reverse.find? fun v => key v = k).or (m.get? k) := by
  induction vs generalizing m with
  | nil => rfl
  | cons v vs ih =>
    rw [insertAll, List.foldl_cons, ← insertAll, ih, List.reverse_cons, List.find?_append,
      get?_set, Option.or_assoc]
    congr 1
    by_cases h : key v = k
    · simp [h]
    · simp [h, Ne.symm h]

theorem Keyed.empty : Keyed key (empty : OrderedMap κ ν) := by
  intro k v h
  cases h

theorem Keyed.set (h : Keyed key m) (v : ν) : Keyed key (m.set (key v) v) := by
  intro k v' hget
  rw [get?_set] at hget
  split_ifs at hget with hk
  · exact Option.some.inj hget ▸ hk.symm
  · exact h k v' hget

theorem Keyed.delete (h : Keyed key m) (k : κ) : Keyed key (m.delete k) := by
  intro k' v hget
  rw [get?_delete] at hget
  split_ifs at hget
  exact h k' v hget

theorem Keyed.deleteWhere (h : Keyed key m) (p : ν → Bool) : Keyed key (m.deleteWhere p) := by
  intro k v hget
  rw [get?_deleteWhere, Option.filter_eq_some_iff] at hget
  exact h k v hget.1

theorem Keyed.insertAll (h : Keyed key m) (vs : List ν) : Keyed key (m.insertAll key vs) := by
  induction vs generalizing m with
  | nil => exact h
  | cons v vs ih => exact ih (h.set v)

theorem Keyed.mem_values (h : Keyed key m) : v ∈ m.values ↔ m.get? (key v) = some v := by
  rw [OrderedMap.mem_values]
  constructor
  · rintro ⟨k, hk⟩
    rw [h k v hk, hk]
  · intro hk
    exact ⟨_, hk⟩

theorem mem_values_insertAll (h : v ∈ (insertAll key m vs).values) : v ∈ m.values ∨ v ∈ vs := by
  obtain ⟨k, hk⟩ := OrderedMap.mem_values.mp h
  rw [get?_insertAll, Option.or_eq_some_iff] at hk
  rcases hk with hk | ⟨-, hk⟩
  · exact .inr (List.mem_reverse.mp (List.mem_of_find?_eq_some hk))
  · exact .inl (OrderedMap.mem_values.mpr ⟨k, hk⟩)

theorem Keyed.exists_mem_values_insertAll (h : Keyed key m) (hv : v ∈ vs) :
    ∃ v' ∈ (m.insertAll key vs).values, key v' = key v := by
  cases hfind : vs.reverse.find? fun v' => key v' = key v with
  | none =>
    have := List.find?_eq_none.mp hfind v (List.mem_reverse.mpr hv)
    simp at this
  | some v' =>
    have hkey : key v' = key v := by simpa using List.find?_some hfind
    refine ⟨v', ?_, hkey⟩
    rw [(h.insertAll vs).mem_values, get?_insertAll, hkey, hfind, Option.some_or]

/-- **Nothing is lost exactly when keys do not clash**: all old and new values are stored in the
end if and only if no new value has the key of a different one. -/
theorem Keyed.insertAll_complete_iff (h : Keyed key m) :
    (∀ v, v ∈ m.values ∨ v ∈ vs → v ∈ (m.insertAll key vs).values) ↔
      ∀ v, v ∈ m.values ∨ v ∈ vs → ∀ v' ∈ vs, key v = key v' → v = v' := by
  have hkeyed := h.insertAll vs
  constructor
  · intro hall v hv v' hv' heq
    have hget := hkeyed.mem_values.mp (hall v hv)
    have hget' := hkeyed.mem_values.mp (hall v' (.inr hv'))
    rw [heq, hget'] at hget
    exact (Option.some.inj hget).symm
  · intro hclash v hv
    rw [hkeyed.mem_values, get?_insertAll]
    cases hfind : vs.reverse.find? fun v' => key v' = key v with
    | some v' =>
      have hv' : v' ∈ vs := List.mem_reverse.mp (List.mem_of_find?_eq_some hfind)
      have hkey : key v' = key v := by simpa using List.find?_some hfind
      rw [hclash v hv v' hv' hkey.symm]
      rfl
    | none =>
      rcases hv with hv | hv
      · exact h.mem_values.mp hv
      · have := List.find?_eq_none.mp hfind v (List.mem_reverse.mpr hv)
        simp at this

theorem entries_insertAll_of_fresh (hfresh : ∀ v ∈ vs, key v ∉ m.keys) (hnd : (vs.map key).Nodup) :
    (m.insertAll key vs).entries = m.entries ++ vs.map fun v => (key v, v) := by
  induction vs generalizing m with
  | nil => exact (List.append_nil _).symm
  | cons v vs ih =>
    obtain ⟨hnew, hnd⟩ := List.nodup_cons.mp hnd
    have hv := hfresh v List.mem_cons_self
    have hset : (m.set (key v) v).entries = m.entries ++ [(key v, v)] := Entries.upsert_of_fresh hv
    rw [OrderedMap.insertAll, List.foldl_cons, ← OrderedMap.insertAll, ih ?_ hnd, hset,
      List.append_assoc, List.map_cons, List.singleton_append]
    intro v' hv' hin
    rw [keys_set, if_neg hv] at hin
    rcases List.mem_append.mp hin with hin | hin
    · exact hfresh v' (List.mem_cons_of_mem _ hv') hin
    · rw [List.mem_singleton] at hin
      exact hnew (hin ▸ List.mem_map_of_mem hv')

theorem Keyed.insertAll_values (h : Keyed key m) :
    (OrderedMap.empty : OrderedMap κ ν).insertAll key m.values = m := by
  have hpair : ∀ e ∈ m.entries, (key e.2, e.2) = e := by
    intro e he
    rw [h e.1 e.2 (get?_eq_some.mpr he)]
  have hkeys : m.values.map key = m.keys := by
    rw [values, keys, List.map_map]
    exact List.map_congr_left fun e he => congrArg Prod.fst (hpair e he)
  apply eq_of_entries
  rw [entries_insertAll_of_fresh (by simp [keys, OrderedMap.empty]) (hkeys ▸ m.nodup), values,
    List.map_map]
  exact (List.nil_append _).trans ((List.map_congr_left hpair).trans (List.map_id _))

end Keyed

/-! ## Sums over the entries -/

variable {M : Type*} [AddCommMonoid M] (f : κ → ν → M)

/-- Setting a key replaces its share of the sum. -/
theorem total_set : (m.set k v).total f + (m.get? k).elim 0 (f k) = m.total f + f k v :=
  Entries.sum_upsert f

/-- Deleting a key takes its share off the sum. -/
theorem total_delete : (m.delete k).total f + (m.get? k).elim 0 (f k) = m.total f :=
  Entries.sum_remove f

end Operations

end OrderedMap
