import N8n.ExpressionRuntime.LazyProxySimulation

/-!
# Lazy proxies are a private copy

Every operation that is no slip returns what it returns on the deep copy, and keeps the invariant.

## Main results

* `Sound.get`, `Sound.set`, `Sound.delete`, `Sound.has`, `Sound.ownKeys`: one lemma for each
  operation
* `lazyProxy_run`: runs without a slip cannot tell the proxies from a deep copy
* `not_private`: an own name that is inherited as well is not read, and reading a missing name
  leaves a trace
-/

namespace N8n.ExpressionRuntime.LazyProxy

open DataProxy (JsValue JsObject View arrayIndex)
open StaticData (Primitive)
open Transition

variable {X : Type} {realm : Realm X} {data : JsonValue} {s t : Side X} {i : ℕ} {p q : Proxy X}
  {value : JsonValue} {key : String} {missing : List (ℕ × String)} {v : Value X}
  {f : Proxy X → Proxy X} {basePath : List String} {heap : Heap X} {target : JsObject (Ref X)}
  {ρ : Type}

/-! ## Writing -/

theorem name_modify (hbase : ∀ p, (f p).basePath = p.basePath) :
    (heap.modify i f).name = heap.name := by
  funext r
  cases r with
  | proxy j => rw [Heap.name, Heap.name, paths_modify hbase]
  | external x => rfl

theorem prefix_paths (hbase : ∀ p, (f p).basePath = p.basePath) :
    heap.paths <+: (heap.modify i f).paths := by
  exact (paths_modify hbase).symm ▸ List.prefix_refl _

/-- A proxy that is materialized is written, and so is its object of the copy. -/
theorem Sound.write (h : Sound realm data s) (hp : s.heap.proxies[i]? = some p)
    (hdone : p.materialized = true)
    (hbase : ∀ p, (f p).basePath = p.basePath) {prototype : Option X}
    (hf : f p = { p with target, prototype })
    (hother : ∀ j key, i ≠ j → ((j, key) ∈ missing ↔ (j, key) ∈ s.missing))
    (hmissing : ∀ key, (i, key) ∈ missing → (i, key) ∈ s.missing ∧
      target.props.get? key = p.target.props.get? key)
    (harray : target.isArray = p.target.isArray)
    (hlength : target.isArray = false → target.length = 0)
    (hheld : ∀ key v, target.props.get? key = some v → IsHeld s.heap v) {c : Copied X}
    (hc : c = Side.shown { s with missing } i { p with target, prototype }) :
    Sound realm data
      { heap := s.heap.modify i f, copy := Function.update s.copy p.basePath c, missing } := by
  obtain ⟨value, hstands⟩ := h.stands i p hp
  have hlazy : ∀ {q : Prop}, (f p).materialized = false → q := by
    intro q hfalse
    rw [hf] at hfalse
    cases hdone.symm.trans hfalse
  refine h.change hp hbase (fun path hne => Function.update_of_ne hne _ _) hother hlazy
    ⟨value, ?_⟩ fun key hmem => ?_
  · rw [hf] at hlazy ⊢
    refine ⟨hstands.path, hstands.fits, harray.trans hstands.isArray, hlength,
      hstands.fetchedKeys, fun key v hv => (hheld key v hv).mono (prefix_paths hbase), hlazy, hlazy,
      hlazy, fun _ => ?_⟩
    change Function.update s.copy p.basePath c p.basePath = _
    rw [Function.update_self, hc, Side.shown, Side.shown]
    simp only [name_modify hbase]
  · obtain ⟨hold, hsame⟩ := hmissing key hmem
    rw [hf, Function.update_self, hc]
    exact ⟨hold, harray, hsame, if_pos hmem⟩

/-- An array has no trace. -/
theorem Sound.not_missing (h : Sound realm data s) (hp : s.heap.proxies[i]? = some p)
    (harray : p.target.isArray = true) (key : String) : (i, key) ∉ s.missing := by
  intro hmem
  cases harray.symm.trans (h.missing_at hp hmem).1

theorem Sound.shown_array (h : Sound realm data s) (hp : s.heap.proxies[i]? = some p)
    (harray : p.target.isArray = true) :
    (s.shown i p).view = p.target.view.map s.heap.name := by
  rw [Side.shown, View.map, View.mk.injEq]
  exact ⟨rfl, rfl, funext fun key => if_neg (h.not_missing hp harray key)⟩

/-- The traces after a name was written. -/
theorem mem_filter {j : ℕ} {key' : String} :
    (j, key') ∈ missing.filter (· ≠ (i, key)) ↔
      (j, key') ∈ missing ∧ ¬ (j = i ∧ key' = key) := by
  rw [List.mem_filter, decide_eq_true_eq, ne_eq, Prod.mk.injEq]

/-- What a name is to the copy once another one was written. -/
theorem ite_filter {α : Type} {key' : String} {new old : Option α} :
    (if key' = key then new else if (i, key') ∈ missing then none else old) =
      if (i, key') ∈ missing.filter (· ≠ (i, key)) then none
      else if key' = key then new else old := by
  by_cases hkey : key' = key
  · rw [if_pos hkey, if_pos hkey, if_neg fun hmem => (mem_filter.mp hmem).2 ⟨rfl, hkey⟩]
  · have hmem : (i, key') ∈ missing.filter (· ≠ (i, key)) ↔ (i, key') ∈ missing := by
      rw [mem_filter]
      exact and_iff_left fun hboth => hkey hboth.2
    simp only [if_neg hkey, hmem]

/-- Setting a property of the copy. -/
theorem Sound.shown_set (h : Sound realm data s) (hp : s.heap.proxies[i]? = some p)
    (v : Value X) :
    (s.shown i p).view.set key (v.map s.heap.name) = (p.target.set key v).map fun target =>
      (Side.shown { s with missing := s.missing.filter (· ≠ (i, key)) } i
        { p with target }).view := by
  cases harray : p.target.isArray with
  | true =>
    rw [h.shown_array hp harray, View.map_set, ← JsObject.view_set, Option.map_map]
    refine Option.map_congr fun target _ => ?_
    rw [Function.comp_apply, Side.shown, View.map, View.mk.injEq]
    refine ⟨rfl, rfl, funext fun key' => ?_⟩
    rw [if_neg fun hmem => h.not_missing hp harray key' (mem_filter.mp hmem).1]
    rfl
  | false =>
    have hlength : ¬ (p.target.isArray ∧ key = "length") := fun hboth => by simp [harray] at hboth
    have hview : ¬ (s.shown i p).view.isArray := by simp [Side.shown, harray]
    rw [View.set, if_neg hview, JsObject.set, dif_neg hlength, Option.map_some, Option.some.injEq,
      View.mk.injEq]
    refine ⟨rfl, ?_, funext fun key' => ?_⟩
    · exact (if_neg (by simp [harray])).symm
    · rw [Function.update_apply]
      change _ = if (i, key') ∈ s.missing.filter (· ≠ (i, key)) then none else
        ((p.target.props.set key v).get? key').map (JsValue.map s.heap.name)
      rw [OrderedMap.get?_set, apply_ite (Option.map _)]
      exact ite_filter

/-- Deleting a property of the copy. -/
theorem shown_delete (s : Side X) (i : ℕ) (p : Proxy X) (key : String) :
    ¬ (p.target.isArray = true ∧ key = "length") →
    (s.shown i p).view.delete key = ((Side.shown
      { s with missing := s.missing.filter (· ≠ (i, key)) } i
        { p with target := (p.target.delete key).1 }).view, (p.target.delete key).2) := by
  intro hlength
  have hview : ¬ ((s.shown i p).view.isArray = true ∧ key = "length") := hlength
  rw [View.delete, if_neg hview, JsObject.delete, if_neg hlength, Prod.mk.injEq, View.mk.injEq]
  refine ⟨⟨rfl, rfl, funext fun key' => ?_⟩, rfl⟩
  rw [Function.update_apply]
  change _ = if (i, key') ∈ s.missing.filter (· ≠ (i, key)) then none else
    ((p.target.props.delete key).get? key').map (JsValue.map s.heap.name)
  rw [OrderedMap.get?_delete, apply_ite (Option.map _)]
  exact ite_filter

/-! ## Reading -/

/-- A name that was missing is not `__proto__`. -/
theorem Sound.not_accessor (h : Sound realm data s) (hmem : (i, key) ∈ s.missing)
    (prototype : Option X) : realm.inherited prototype key ≠ some .accessor := by
  obtain ⟨-, -, -, -, hne, -⟩ := h.missing i key hmem
  intro hinherited
  obtain ⟨x, -, hfind⟩ := Option.bind_eq_some_iff.mp hinherited
  exact hne (realm.find_accessor x key hfind)

theorem own_shown (s : Side X) (i : ℕ) (p : Proxy X) (hmem : (i, key) ∉ s.missing) :
    (s.shown i p).view.own key = (p.target.view.own key).map (JsValue.map s.heap.name) := by
  unfold View.own Side.shown
  simp only [hmem, if_false]
  change (if p.target.isArray = true ∧ key = "length" then _ else _) =
    Option.map _ (if p.target.isArray = true ∧ key = "length" then _ else _)
  split
  · rfl
  · rfl

theorem Sound.own_missing (h : Sound realm data s) (hp : s.heap.proxies[i]? = some p)
    (hmem : (i, key) ∈ s.missing) :
    (s.shown i p).view.own key = none ∧ p.target.view.own key = some .undefined := by
  obtain ⟨harray, hget, -⟩ := h.missing_at hp hmem
  have hnot : ¬ (p.target.isArray = true ∧ key = "length") := fun hboth => by simp [harray] at hboth
  constructor
  · rw [View.own, if_neg (show ¬ ((s.shown i p).view.isArray = true ∧ key = "length") from hnot)]
    exact if_pos hmem
  · rw [View.own, if_neg (show ¬ (p.target.view.isArray = true ∧ key = "length") from hnot)]
    exact hget

theorem inherited_value_map {ρ τ : Type} {external : X → ρ} {name : ρ → τ} {external' : X → τ}
    (hname : ∀ x, name (external x) = external' x) (v : JsValue X) :
    (v.map external).map name = v.map external' := by
  cases v with
  | primitive p => rfl
  | builtin ofArray key => rfl
  | reference x => exact congrArg JsValue.reference (hname x)

/-- What is read under a name that is not owned. -/
def inheritedValue {ρ : Type} (realm : Realm X) (external : X → ρ) (prototype : Option X)
    (key : String) : JsValue ρ :=
  match realm.inherited prototype key with
  | some (.value value) => value.map external
  | some .accessor => (prototype.map fun x => .reference (external x)).getD (.primitive .null)
  | none => .undefined

theorem get_eq (external : X → ρ) (view : View ρ) (prototype : Option X)
    (key : String) : realm.get external view prototype key =
      (view.own key).getD (inheritedValue realm external prototype key) := by
  unfold Realm.get inheritedValue
  cases view.own key with
  | some v => rfl
  | none => rfl

/-- What is inherited is the same for a proxy and for the copy. -/
theorem inheritedValue_map (heap : Heap X) (prototype : Option X) (key : String) :
    (inheritedValue realm Ref.external prototype key).map heap.name =
      inheritedValue realm .external prototype key := by
  unfold inheritedValue
  cases realm.inherited prototype key with
  | none => rfl
  | some inherited =>
    cases inherited with
    | value v => exact inherited_value_map (fun _ => rfl) v
    | accessor =>
      cases prototype with
      | none => rfl
      | some x => rfl

theorem inheritedValue_of_none (external : X → ρ) {prototype : Option X}
    (h : realm.inherited prototype key = none) :
    inheritedValue realm external prototype key = .undefined := by
  rw [inheritedValue, h]

/-- A read that does not find a trace. -/
theorem get_shown (s : Side X) (i : ℕ) (p : Proxy X)
    (hmem : (i, key) ∈ s.missing → realm.inherited p.prototype key = none)
    (hmissing : (i, key) ∈ s.missing → (s.shown i p).view.own key = none ∧
      p.target.view.own key = some .undefined) :
    (realm.get Ref.external p.target.view p.prototype key).map s.heap.name =
      realm.get .external (s.shown i p).view p.prototype key := by
  rw [get_eq, get_eq]
  by_cases hin : (i, key) ∈ s.missing
  · obtain ⟨hnone, hundefined⟩ := hmissing hin
    rw [hnone, hundefined, Option.getD_none, inheritedValue_of_none CopyRef.external (hmem hin)]
    rfl
  · rw [own_shown s i p hin]
    cases hown : p.target.view.own key with
    | some v => rfl
    | none => exact inheritedValue_map s.heap p.prototype key

/-- An object of the copy before the first write, the length of an array aside. -/
theorem own_initialCopy (hstands : Stands realm s i p value)
    (hlength : ¬ (p.target.isArray = true ∧ key = "length")) :
    (initialCopy realm value p.basePath).view.own key =
      (ownValue value key).map (copyValue (p.basePath ++ [key])) := by
  have hcopyLength : ¬ ((initialCopy realm value p.basePath).view.isArray = true ∧
      key = "length") := by
    rw [show (initialCopy realm value p.basePath).view.isArray = isArray value from rfl,
      hstands.fits.isArray, ← hstands.isArray]
    exact hlength
  rw [View.own, if_neg hcopyLength]
  rfl

theorem prototype_initialCopy (hstands : Stands realm s i p value)
    (hlazy : p.materialized = false) :
    (initialCopy realm value p.basePath).prototype = p.prototype := by
  rw [hstands.prototype hlazy, ← hstands.fits.isArray]
  rfl

theorem own_target (hlength : ¬ (p.target.isArray = true ∧ key = "length")) :
    p.target.view.own key = p.target.props.get? key :=
  if_neg hlength

/-- The read of a property that the target has or inherits, before the first write. -/
theorem Sound.get_cached (h : Sound realm data s) (hp : s.heap.proxies[i]? = some p)
    (hstands : Stands realm s i p value) (hlazy : p.materialized = false)
    (hlength : ¬ (p.target.isArray = true ∧ key = "length"))
    (hhas : realm.has p.target.view p.prototype key = true)
    (hslip : (realm.inherited p.prototype key).isSome →
      (i, key) ∉ s.missing ∧ ownValue value key = none) :
    (realm.get Ref.external p.target.view p.prototype key).map s.heap.name =
      realm.get .external (s.copy p.basePath).view (s.copy p.basePath).prototype key := by
  rw [h.copy_eq hp hstands hlazy, get_eq, get_eq, own_initialCopy hstands hlength,
    prototype_initialCopy hstands hlazy, own_target hlength]
  cases hcached : p.target.props.get? key with
  | some cached =>
    rcases hstands.cached hlazy key cached hcached with ⟨child, hchild, hname⟩ | ⟨hmem, rfl, hnone⟩
    · rw [hchild]
      exact hname
    · have hinherited : realm.inherited p.prototype key = none := by
        by_contra hsome
        exact (hslip (Option.isSome_iff_ne_none.mpr hsome)).1 hmem
      rw [hnone, Option.map_none, Option.getD_none,
        inheritedValue_of_none CopyRef.external hinherited]
      rfl
  | none =>
    have hinherited : (realm.inherited p.prototype key).isSome := by
      rw [Realm.has, own_target hlength, hcached] at hhas
      exact hhas
    rw [(hslip hinherited).2]
    exact inheritedValue_map s.heap p.prototype key

/-- What the target neither has nor inherits is not cached. -/
theorem not_has (hlength : ¬ (p.target.isArray = true ∧ key = "length"))
    (hhas : realm.has p.target.view p.prototype key = false) :
    p.target.props.get? key = none ∧ realm.inherited p.prototype key = none := by
  rw [Realm.has, Bool.or_eq_false_iff, own_target hlength, Option.isSome_eq_false_iff,
    Option.isNone_iff_eq_none, Option.isSome_eq_false_iff, Option.isNone_iff_eq_none] at hhas
  exact hhas

/-- What the copy reads of a property that the target neither has nor inherits. -/
theorem Sound.get_uncached (h : Sound realm data s) (hp : s.heap.proxies[i]? = some p)
    (hstands : Stands realm s i p value) (hlazy : p.materialized = false)
    (hlength : ¬ (p.target.isArray = true ∧ key = "length"))
    (hhas : realm.has p.target.view p.prototype key = false) :
    realm.get CopyRef.external (s.copy p.basePath).view (s.copy p.basePath).prototype key =
      ((ownValue value key).map (copyValue (p.basePath ++ [key]))).getD .undefined := by
  rw [h.copy_eq hp hstands hlazy, get_eq, own_initialCopy hstands hlength,
    prototype_initialCopy hstands hlazy,
    inheritedValue_of_none CopyRef.external (not_has hlength hhas).2]

/-- The name of a prototype is inherited before the first write. -/
theorem Stands.ne_proto (hstands : Stands realm s i p value) (hlazy : p.materialized = false)
    (hlength : ¬ (p.target.isArray = true ∧ key = "length"))
    (hhas : realm.has p.target.view p.prototype key = false) : key ≠ "__proto__" := by
  rintro rfl
  have hnone := (not_has hlength hhas).2
  rw [hstands.prototype hlazy] at hnone
  have hfind : realm.inherited (some (realm.prototype p.proxyMeta.isArray)) "__proto__" =
      some .accessor := realm.find_prototype _
  rw [hfind] at hnone
  cases hnone

/-- The host has nothing under the name of a property that is neither owned nor inherited. -/
theorem Stands.getValueAtPath_missing (hstands : Stands realm s i p value)
    (hne : key ≠ "__proto__") {fields : List (String × JsonValue)} (hvalue : value = .object fields)
    (hnone : ownValue value key = none) :
    getValueAtPath s.heap.data (p.basePath ++ [key]) = .undefined := by
  subst hvalue
  rw [getValueAtPath_append hstands.path hstands.fits.ne_null, Found.member, hnone,
    Option.elim_none, if_neg hne]

/-! ## The operations -/

/-- An operation that returns what it returns on the copy, and keeps the invariant. -/
structure Agrees (realm : Realm X) (data : JsonValue) (s : Side X) (heap : Heap X)
    (answer : Answer (Ref X)) (copy : Copy X) (copyAnswer : Answer (CopyRef X))
    (missing : List (ℕ × String)) : Prop where
  sound : Sound realm data ⟨heap, copy, missing⟩
  paths : s.heap.paths <+: heap.paths
  answer : answer.map heap.name = copyAnswer

theorem missingAfter_of_not {op : String} (hnot : ¬ LeavesTrace realm s.heap i op) :
    missingAfter realm s i (.get op) = s.missing :=
  if_neg hnot

theorem leavesTrace_at (hp : s.heap.proxies[i]? = some p)
    (htrace : LeavesTrace realm s.heap i key) :
    ∃ keys, p.materialized = false ∧ p.proxyMeta = .object keys ∧
      realm.has p.target.view p.prototype key = false ∧
        getValueAtPath s.heap.data (p.basePath ++ [key]) = .undefined := by
  obtain ⟨q, keys, hq, htrace⟩ := htrace
  obtain rfl := Option.some.inj (hp.symm.trans hq)
  exact ⟨keys, htrace⟩

theorem not_leavesTrace_of_materialized (hp : s.heap.proxies[i]? = some p)
    (hdone : p.materialized = true) : ¬ LeavesTrace realm s.heap i key := by
  intro htrace
  obtain ⟨-, hlazy, -⟩ := leavesTrace_at hp htrace
  cases hdone.symm.trans hlazy

theorem not_leavesTrace_of_array (hp : s.heap.proxies[i]? = some p) {length : ℕ}
    (hmeta : p.proxyMeta = .array length) : ¬ LeavesTrace realm s.heap i key := by
  intro htrace
  obtain ⟨keys, -, hobject, -⟩ := leavesTrace_at hp htrace
  cases hmeta.symm.trans hobject

theorem not_leavesTrace_of_has (hp : s.heap.proxies[i]? = some p)
    (hhas : realm.has p.target.view p.prototype key = true) : ¬ LeavesTrace realm s.heap i key := by
  intro htrace
  obtain ⟨-, -, -, hnot, -⟩ := leavesTrace_at hp htrace
  cases hhas.symm.trans hnot

/-- Reading where nothing is fetched. -/
theorem Sound.get_same (h : Sound realm data s)
    (hget : s.heap.get realm i key = (s.heap, v)) (hnot : ¬ LeavesTrace realm s.heap i key)
    (hv : v.map s.heap.name =
      realm.get .external (s.copy p.basePath).view (s.copy p.basePath).prototype key) :
    Agrees realm data s (s.heap.get realm i key).1 (.value (s.heap.get realm i key).2) s.copy
      (.value (realm.get .external (s.copy p.basePath).view (s.copy p.basePath).prototype key))
      (missingAfter realm s i (.get key)) := by
  rw [hget, missingAfter_of_not hnot]
  exact ⟨h, List.prefix_refl _, congrArg Answer.value hv⟩

/-- Reading a property. -/
theorem Sound.get (h : Sound realm data s) (hp : s.heap.proxies[i]? = some p)
    (hslip : (realm.inherited p.prototype key).isSome → (i, key) ∉ s.missing ∧
      (p.materialized = false → ∀ value, navigate (.data s.heap.data) p.basePath = .data value →
        ownValue value key = none)) :
    Agrees realm data s (s.heap.get realm i key).1 (.value (s.heap.get realm i key).2) s.copy
      (.value (realm.get .external (s.copy p.basePath).view (s.copy p.basePath).prototype key))
      (missingAfter realm s i (.get key)) := by
  obtain ⟨value, hstands⟩ := h.stands i p hp
  cases hdone : p.materialized with
  | true =>
    -- After the first write the target is read.
    refine h.get_same (v := realm.get .external p.target.view p.prototype key) ?_
      (not_leavesTrace_of_materialized hp hdone) ?_
    · simp [Heap.get, hp, hdone]
    · rw [hstands.written hdone]
      refine get_shown s i p (fun hmem => ?_) fun hmem => h.own_missing hp hmem
      by_contra hsome
      exact (hslip (Option.isSome_iff_ne_none.mpr hsome)).1 hmem
  | false =>
    have hslip' : (realm.inherited p.prototype key).isSome →
        (i, key) ∉ s.missing ∧ ownValue value key = none := fun hsome =>
      ⟨(hslip hsome).1, (hslip hsome).2 hdone value hstands.path⟩
    match value, hstands.fits with
    | .array items, hmeta =>
      have hmeta : p.proxyMeta = .array items.length := hmeta
      have hnot := @not_leavesTrace_of_array X realm s i p key hp items.length hmeta
      by_cases hlength : key = "length"
      · subst hlength
        refine h.get_same (v := .primitive (.number items.length)) ?_ hnot ?_
        · simp [Heap.get, hp, hdone, hmeta]
        · rw [h.copy_eq hp hstands hdone]
          rfl
      · have hlength' : ¬ (p.target.isArray = true ∧ key = "length") := fun hboth => hlength hboth.2
        cases hhas : realm.has p.target.view p.prototype key with
        | true =>
          refine h.get_same (v := realm.get .external p.target.view p.prototype key) ?_ hnot ?_
          · simp [Heap.get, hp, hdone, hmeta, hlength, hhas]
          · exact h.get_cached hp hstands hdone hlength' hhas hslip'
        | false =>
          have huncached := h.get_uncached hp hstands hdone hlength' hhas
          cases hbounds : isInArrayBounds items.length key with
          | none =>
            refine h.get_same (v := .undefined) ?_ hnot ?_
            · simp [Heap.get, hp, hdone, hmeta, hlength, hhas, hbounds]
            · rw [huncached, ownValue, hbounds]
              rfl
          | some idx =>
            have hget : s.heap.get realm i key =
                s.heap.fetchAndCacheArrayElement realm i p.basePath idx key := by
              simp [Heap.get, hp, hdone, hmeta, hlength, hhas, hbounds]
            obtain ⟨hlt, hkey⟩ := isInArrayBounds_eq_some.mp hbounds
            obtain ⟨item, hitem⟩ : ∃ item, items[idx]? = some item :=
              ⟨_, List.getElem?_eq_getElem hlt⟩
            have hchild : ownValue (.array items) key = some item :=
              ownValue_array.mpr ⟨idx, hkey, hitem⟩
            rw [Heap.fetchAndCacheArrayElement, getArrayElement_eq hstands.path hitem] at hget
            have hfetched := h.fetch hp hstands hdone (not_has hlength' hhas).1 hchild
            rw [hget, missingAfter_of_not hnot, huncached, hchild]
            exact ⟨hfetched.sound, hfetched.paths, congrArg Answer.value hfetched.name⟩
    | .object fields, _ =>
      obtain ⟨keys, hmeta, harray⟩ := hstands.object
      have hlength : ¬ (p.target.isArray = true ∧ key = "length") := fun hboth => by
        simp [harray] at hboth
      cases hhas : realm.has p.target.view p.prototype key with
      | true =>
        refine h.get_same (v := realm.get .external p.target.view p.prototype key) ?_
          (not_leavesTrace_of_has hp hhas) ?_
        · simp [Heap.get, hp, hdone, hmeta, hhas]
        · exact h.get_cached hp hstands hdone hlength hhas hslip'
      | false =>
        have huncached := h.get_uncached hp hstands hdone hlength hhas
        have hnone := (not_has hlength hhas).1
        have hget : s.heap.get realm i key =
            s.heap.fetchAndCacheObjectValue realm i p.basePath key := by
          simp [Heap.get, hp, hdone, hmeta, hhas]
        rw [Heap.fetchAndCacheObjectValue] at hget
        cases hchild : ownValue (.object fields) key with
        | some child =>
          have hpath := getValueAtPath_eq hstands.path hstands.fits.ne_null hchild
          have hnot : ¬ LeavesTrace realm s.heap i key := by
            intro htrace
            obtain ⟨-, -, -, -, hundefined⟩ := leavesTrace_at hp htrace
            rw [hpath] at hundefined
            cases child <;> cases hundefined
          have hfetched := h.fetch hp hstands hdone hnone hchild
          rw [hget, hpath, missingAfter_of_not hnot, huncached, hchild]
          exact ⟨hfetched.sound, hfetched.paths, congrArg Answer.value hfetched.name⟩
        | none =>
          -- Nothing is there, and `undefined` is cached.
          have hne := hstands.ne_proto hdone hlength hhas
          have hpath := hstands.getValueAtPath_missing hne rfl hchild
          have htrace : LeavesTrace realm s.heap i key := ⟨p, keys, hp, hdone, hmeta, hhas, hpath⟩
          have hmissing : missingAfter realm s i (.get key) = (i, key) :: s.missing := if_pos htrace
          have hcached : s.heap.fetchAndCache realm i p.basePath key .undefined =
              (s.heap.cached i key .undefined [], .undefined) := by
            simp [Heap.fetchAndCache, Heap.materializeChild, Heap.cached]
          rw [hget, hpath, hmissing, hcached, huncached, hchild]
          refine ⟨?_, ?_, rfl⟩
          · exact h.cache hp hstands hdone hlength hnone (Or.inl rfl)
              (Or.inr ⟨rfl, rfl, harray, hne, hchild⟩) trivial
              (Or.inr ⟨List.mem_cons_self, rfl, hchild⟩)
          · rw [paths_cached]
            exact List.prefix_append _ _

/-- Where an accessor is called, and where not, is the same for the copy. -/
theorem Sound.isAccessor_eq (h : Sound realm data s) (hp : s.heap.proxies[i]? = some p) :
    realm.isAccessor (s.shown i p).view p.prototype key =
      realm.isAccessor p.target.view p.prototype key := by
  unfold Realm.isAccessor
  by_cases hmem : (i, key) ∈ s.missing
  · obtain ⟨hnone, hundefined⟩ := h.own_missing hp hmem
    rw [hnone, hundefined]
    have hnot := h.not_accessor hmem p.prototype
    cases hinherited : realm.inherited p.prototype key with
    | none => rfl
    | some inherited =>
      cases inherited with
      | value v => rfl
      | accessor => exact absurd hinherited hnot
  · rw [own_shown s i p hmem]
    cases p.target.view.own key with
    | some v => rfl
    | none =>
      cases realm.inherited p.prototype key with
      | none => rfl
      | some inherited => cases inherited <;> rfl

/-- The prototype after the accessor was called with a value that is no proxy. -/
theorem prototypeAfter_map (heap : Heap X) (prototype : Option X)
    (hv : ∀ j, v ≠ .reference (.proxy j)) :
    prototypeAfter CopyRef.asExternal prototype (v.map heap.name) =
      prototypeAfter Ref.asExternal prototype v := by
  match v with
  | .primitive p => cases p <;> rfl
  | .builtin ofArray name => rfl
  | .reference (.external x) => rfl
  | .reference (.proxy j) => exact absurd rfl (hv j)

theorem filter_of_not_mem (h : (i, key) ∉ missing) : missing.filter (· ≠ (i, key)) = missing := by
  rw [List.filter_eq_self]
  intro e he
  exact decide_eq_true fun heq => h (heq ▸ he)

theorem other_filter (j : ℕ) (key' : String) (hij : i ≠ j) :
    (j, key') ∈ missing.filter (· ≠ (i, key)) ↔ (j, key') ∈ missing := by
  rw [mem_filter]
  exact and_iff_left fun hboth => hij hboth.1.symm

/-- What is set is held, and what was stored before. -/
theorem Stands.held_set (hstands : Stands realm s i p value) (hv : IsHeld s.heap v)
    (hset : p.target.set key v = some target) (key' : String) (w : Value X)
    (hw : target.props.get? key' = some w) : IsHeld s.heap w := by
  rcases JsObject.get?_of_set hset hw with ⟨-, rfl⟩ | hold
  · exact hv
  · exact hstands.held key' w hold

theorem isArray_of_set {target target' : JsObject ρ} {v : JsValue ρ}
    (hset : target.set key v = some target') : target'.isArray = target.isArray ∧
      (target.isArray = false → target'.length = target.length ∧
        ∀ key' ≠ key, target'.props.get? key' = target.props.get? key') := by
  unfold JsObject.set at hset
  split at hset
  next h =>
    obtain ⟨length, -, rfl⟩ := Option.map_eq_some_iff.mp hset
    refine ⟨rfl, fun hfalse => ?_⟩
    rw [h.1] at hfalse
    cases hfalse
  next h =>
    cases hset
    refine ⟨rfl, fun hfalse => ⟨?_, fun key' hne => OrderedMap.get?_set_of_ne hne⟩⟩
    exact if_neg (by simp [hfalse])

/-- Setting a property after the first write. -/
theorem set_eq (hp : heap.proxies[i]? = some p) (hdone : p.materialized = true)
    (v : Value X) : heap.set realm i key v =
      if realm.isAccessor p.target.view p.prototype key then
        (heap.modify i fun p =>
          { p with prototype := prototypeAfter Ref.asExternal p.prototype v }, true)
      else
        match p.target.set key v with
        | none => (heap, false)
        | some target => (heap.modify i fun p => { p with target }, true) := by
  unfold Heap.set
  rw [materialize_of_materialized hp hdone]
  dsimp only
  generalize heap.proxies[i]? = found at hp ⊢
  subst hp
  rfl

theorem copy_set_eq {copy : Copy X} {path : List String} {c : Copied X} (hc : copy path = c)
    (v : JsValue (CopyRef X)) : copy.set realm path key v =
      if realm.isAccessor c.view c.prototype key then
        (Function.update copy path
          { c with prototype := prototypeAfter CopyRef.asExternal c.prototype v }, true)
      else
        match c.view.set key v with
        | none => (copy, false)
        | some view => (Function.update copy path { c with view }, true) := by
  subst hc
  rfl

theorem Sound.set_materialized (h : Sound realm data s) (hp : s.heap.proxies[i]? = some p)
    (hdone : p.materialized = true) (hv : IsHeld s.heap v)
    (hslip : realm.isAccessor p.target.view p.prototype key = true →
      ∀ j, v ≠ .reference (.proxy j)) :
    Agrees realm data s (s.heap.set realm i key v).1
      (if (s.heap.set realm i key v).2 then .done true else .error)
      (s.copy.set realm p.basePath key (v.map s.heap.name)).1
      (if (s.copy.set realm p.basePath key (v.map s.heap.name)).2 then .done true else .error)
      (s.missing.filter (· ≠ (i, key))) := by
  obtain ⟨value, hstands⟩ := h.stands i p hp
  have hcopy := hstands.written hdone
  have hisAccessor := @Sound.isAccessor_eq X realm data s i p key h hp
  have hproxy := @set_eq X realm i p key s.heap hp hdone v
  have hobject := @copy_set_eq X realm key s.copy p.basePath _ hcopy (v.map s.heap.name)
  rw [show (s.shown i p).prototype = p.prototype from rfl, hisAccessor] at hobject
  cases haccessor : realm.isAccessor p.target.view p.prototype key with
  | true =>
    rw [if_pos haccessor] at hproxy hobject
    rw [hproxy, hobject]
    have hnot : (i, key) ∉ s.missing := by
      intro hmem
      rw [Realm.isAccessor, (h.own_missing hp hmem).2] at haccessor
      cases haccessor
    rw [filter_of_not_mem hnot, prototypeAfter_map s.heap p.prototype (hslip haccessor)]
    refine ⟨?_, ?_, rfl⟩
    · exact h.write (f := fun p =>
          { p with prototype := prototypeAfter Ref.asExternal p.prototype v }) hp hdone
        (fun _ => rfl) rfl (fun _ _ _ => Iff.rfl) (fun key hmem => ⟨hmem, rfl⟩) rfl hstands.length
        hstands.held rfl
    · exact prefix_paths (f := fun p =>
        { p with prototype := prototypeAfter Ref.asExternal p.prototype v }) fun _ => rfl
  | false =>
    rw [if_neg (Bool.eq_false_iff.mp haccessor)] at hproxy hobject
    rw [@Sound.shown_set X realm data s i p key h hp v] at hobject
    cases hset : p.target.set key v with
    | none =>
      rw [hset] at hproxy hobject
      rw [hproxy, hobject]
      have harray : p.target.isArray = true := by
        unfold JsObject.set at hset
        split at hset
        next hboth => exact hboth.1
        next => cases hset
      rw [filter_of_not_mem (h.not_missing hp harray key)]
      exact ⟨h, List.prefix_refl _, rfl⟩
    | some target =>
      rw [hset] at hproxy hobject
      rw [hproxy, hobject]
      obtain ⟨harray, hobject⟩ := isArray_of_set hset
      refine ⟨?_, ?_, rfl⟩
      · refine h.write (f := fun p => { p with target }) hp hdone (fun _ => rfl) rfl other_filter
          (fun key' hmem => ?_) harray (fun hfalse => ?_)
          (fun key' w hw => hstands.held_set hv hset key' w hw) rfl
        · obtain ⟨hold, hne⟩ := mem_filter.mp hmem
          have hfalse := (h.missing_at hp hold).1
          exact ⟨hold, (hobject hfalse).2 key' fun heq => hne ⟨rfl, heq⟩⟩
        · rw [harray] at hfalse
          rw [(hobject hfalse).1, hstands.length hfalse]
      · exact prefix_paths (f := fun p => { p with target }) fun _ => rfl

/-- Setting a property. -/
theorem Sound.set (h : Sound realm data s) (hp : s.heap.proxies[i]? = some p)
    (hv : IsHeld s.heap v)
    (hslip : ∀ q j, (s.heap.materialize realm i).proxies[i]? = some q →
      realm.isAccessor q.target.view q.prototype key = true → v ≠ .reference (.proxy j)) :
    Agrees realm data s (s.heap.set realm i key v).1
      (if (s.heap.set realm i key v).2 then .done true else .error)
      (s.copy.set realm p.basePath key (v.map s.heap.name)).1
      (if (s.copy.set realm p.basePath key (v.map s.heap.name)).2 then .done true else .error)
      (s.missing.filter (· ≠ (i, key))) := by
  obtain ⟨⟨q, hq, hbase, hdone⟩, hsound, hpaths⟩ :=
    @Sound.materialize X realm data s i p h hp
  have hagrees := hsound.set_materialized hq hdone (hv.mono hpaths) fun haccessor j =>
    hslip q j hq haccessor
  have hset : (s.heap.materialize realm i).set realm i key v = s.heap.set realm i key v := by
    rw [Heap.set, materialize_of_materialized hq hdone, Heap.set]
  change Agrees realm data _ ((s.heap.materialize realm i).set realm i key v).1
    (if ((s.heap.materialize realm i).set realm i key v).2 then .done true else .error)
    (s.copy.set realm q.basePath key (v.map (s.heap.materialize realm i).name)).1
    (if (s.copy.set realm q.basePath key (v.map (s.heap.materialize realm i).name)).2 then
      .done true else .error) _ at hagrees
  rw [hset, hbase, hv.map_name hpaths] at hagrees
  exact ⟨hagrees.sound, hpaths.trans hagrees.paths, hagrees.answer⟩

/-- Deleting a property after the first write. -/
theorem delete_eq (hp : heap.proxies[i]? = some p)
    (hdone : p.materialized = true) : heap.delete realm i key =
      (heap.modify i fun p => { p with target := (p.target.delete key).1 },
        (p.target.delete key).2) := by
  simp only [Heap.delete, materialize_of_materialized hp hdone, hp]

theorem Sound.delete_materialized (h : Sound realm data s) (hp : s.heap.proxies[i]? = some p)
    (hdone : p.materialized = true) :
    Agrees realm data s (s.heap.delete realm i key).1 (.done (s.heap.delete realm i key).2)
      (Function.update s.copy p.basePath
        { s.copy p.basePath with view := ((s.copy p.basePath).view.delete key).1 })
      (.done ((s.copy p.basePath).view.delete key).2) (s.missing.filter (· ≠ (i, key))) := by
  obtain ⟨value, hstands⟩ := h.stands i p hp
  rw [delete_eq hp hdone, hstands.written hdone]
  by_cases hlength : p.target.isArray = true ∧ key = "length"
  · -- The length of an array stays.
    have hview : (s.shown i p).view.isArray = true ∧ key = "length" := hlength
    have hsame : p.target.delete key = (p.target, false) := if_pos hlength
    rw [View.delete, if_pos hview, filter_of_not_mem (h.not_missing hp hlength.1 key), hsame]
    refine ⟨?_, prefix_paths fun _ => rfl, rfl⟩
    exact h.write (f := fun p => { p with target := (p.target.delete key).1 }) hp hdone
      (fun _ => rfl) (by rw [hsame]) (fun _ _ _ => Iff.rfl) (fun key hmem => ⟨hmem, rfl⟩) rfl
      hstands.length hstands.held rfl
  · rw [shown_delete s i p key hlength]
    have hget : ∀ key', (p.target.delete key).1.props.get? key' =
        if key' = key then none else p.target.props.get? key' := by
      intro key'
      rw [JsObject.delete, if_neg hlength]
      exact OrderedMap.get?_delete
    have harray : (p.target.delete key).1.isArray = p.target.isArray := by
      rw [JsObject.delete, if_neg hlength]
    refine ⟨?_, prefix_paths fun _ => rfl, rfl⟩
    refine h.write (f := fun p => { p with target := (p.target.delete key).1 }) hp hdone
      (fun _ => rfl) rfl other_filter (fun key' hmem => ?_) harray (fun hfalse => ?_)
      (fun key' w hw => ?_) rfl
    · obtain ⟨hold, hne⟩ := mem_filter.mp hmem
      exact ⟨hold, (hget key').trans (if_neg fun heq => hne ⟨rfl, heq⟩)⟩
    · rw [harray] at hfalse
      rw [JsObject.delete, if_neg hlength]
      exact hstands.length hfalse
    · rw [hget] at hw
      split_ifs at hw
      exact hstands.held key' w hw

/-- Deleting a property. -/
theorem Sound.delete (h : Sound realm data s) (hp : s.heap.proxies[i]? = some p) :
    Agrees realm data s (s.heap.delete realm i key).1 (.done (s.heap.delete realm i key).2)
      (Function.update s.copy p.basePath
        { s.copy p.basePath with view := ((s.copy p.basePath).view.delete key).1 })
      (.done ((s.copy p.basePath).view.delete key).2) (s.missing.filter (· ≠ (i, key))) := by
  obtain ⟨⟨q, hq, hbase, hdone⟩, hsound, hpaths⟩ :=
    @Sound.materialize X realm data s i p h hp
  have hagrees := @Sound.delete_materialized X realm data _ i q key hsound hq hdone
  have hdelete : (s.heap.materialize realm i).delete realm i key = s.heap.delete realm i key := by
    rw [Heap.delete, materialize_of_materialized hq hdone, Heap.delete]
  change Agrees realm data _ ((s.heap.materialize realm i).delete realm i key).1
    (.done ((s.heap.materialize realm i).delete realm i key).2)
    (Function.update s.copy q.basePath
      { s.copy q.basePath with view := ((s.copy q.basePath).view.delete key).1 })
    (.done ((s.copy q.basePath).view.delete key).2) _ at hagrees
  rw [hdelete, hbase] at hagrees
  exact ⟨hagrees.sound, hpaths.trans hagrees.paths, hagrees.answer⟩

theorem own_initialCopy_length {items : List JsonValue} {path : List String} :
    (initialCopy realm (.array items) path).view.own "length" =
      some (.primitive (.number items.length)) :=
  rfl

/-- What is cached is owned by the copy, or inherited where it is a trace. -/
theorem Sound.has_cached (hstands : Stands realm s i p value) (hlazy : p.materialized = false)
    (hlength : ¬ (p.target.isArray = true ∧ key = "length"))
    (hhas : realm.has p.target.view p.prototype key = true)
    (hslip : (i, key) ∈ s.missing → realm.inherited p.prototype key ≠ none) :
    ((ownValue value key).isSome || (realm.inherited p.prototype key).isSome) = true := by
  rw [Bool.or_eq_true]
  rw [Realm.has, own_target hlength, Bool.or_eq_true] at hhas
  rcases hhas with hown | hinherited
  · obtain ⟨cached, hcached⟩ := Option.isSome_iff_exists.mp hown
    rcases hstands.cached hlazy key cached hcached with ⟨child, hchild, -⟩ | ⟨hmem, -⟩
    · rw [hchild]
      exact Or.inl rfl
    · exact Or.inr (Option.isSome_iff_ne_none.mpr (hslip hmem))
  · exact Or.inr hinherited

/-- Whether there is a property. -/
theorem Sound.has (h : Sound realm data s) (hp : s.heap.proxies[i]? = some p)
    (hslip : (i, key) ∈ s.missing → realm.inherited p.prototype key ≠ none) :
    s.heap.has realm i key =
      realm.has (s.copy p.basePath).view (s.copy p.basePath).prototype key := by
  obtain ⟨value, hstands⟩ := h.stands i p hp
  cases hdone : p.materialized with
  | true =>
    have hheap : s.heap.has realm i key = realm.has p.target.view p.prototype key := by
      simp [Heap.has, hp, hdone]
    rw [hheap, hstands.written hdone, Realm.has, Realm.has,
      show (s.shown i p).prototype = p.prototype from rfl]
    by_cases hmem : (i, key) ∈ s.missing
    · have hsome := Option.isSome_iff_ne_none.mpr (hslip hmem)
      rw [hsome, Bool.or_true, Bool.or_true]
    · rw [own_shown s i p hmem, Option.isSome_map]
  | false =>
    rw [h.copy_eq hp hstands hdone]
    match value, hstands.fits with
    | .array items, hmeta =>
      have hmeta : p.proxyMeta = .array items.length := hmeta
      by_cases hlength : key = "length"
      · subst hlength
        rw [Realm.has, own_initialCopy_length]
        simp [Heap.has, hp, hdone, hmeta]
      · have hlength' : ¬ (p.target.isArray = true ∧ key = "length") := fun hboth => hlength hboth.2
        rw [Realm.has, own_initialCopy hstands hlength', prototype_initialCopy hstands hdone,
          Option.isSome_map]
        cases hhas : realm.has p.target.view p.prototype key with
        | true =>
          rw [Sound.has_cached hstands hdone hlength' hhas hslip]
          simp [Heap.has, hp, hdone, hmeta, hhas]
        | false =>
          have hheap : s.heap.has realm i key = (isInArrayBounds items.length key).isSome := by
            simp [Heap.has, hp, hdone, hmeta, hlength, hhas]
          rw [hheap, (not_has hlength' hhas).2, Option.isSome_none, Bool.or_false, ownValue]
          cases hbounds : isInArrayBounds items.length key with
          | none => rfl
          | some idx =>
            have hlt := (isInArrayBounds_eq_some.mp hbounds).1
            rw [Option.bind_some, List.getElem?_eq_getElem hlt]
            rfl
    | .object fields, _ =>
      obtain ⟨keys, hmeta, harray⟩ := hstands.object
      have hlength : ¬ (p.target.isArray = true ∧ key = "length") := fun hboth => by
        simp [harray] at hboth
      rw [Realm.has, own_initialCopy hstands hlength, prototype_initialCopy hstands hdone,
        Option.isSome_map]
      cases hhas : realm.has p.target.view p.prototype key with
      | true =>
        rw [Sound.has_cached hstands hdone hlength hhas hslip]
        simp [Heap.has, hp, hdone, hmeta, hhas]
      | false =>
        rw [(not_has hlength hhas).2, Option.isSome_none, Bool.or_false]
        cases hchild : ownValue (.object fields) key with
        | some child =>
          have hpath := getValueAtPath_eq hstands.path hstands.fits.ne_null hchild
          cases child <;> simp [Heap.has, hp, hdone, hmeta, hhas, hpath, transfer]
        | none =>
          have hne := hstands.ne_proto hdone hlength hhas
          have hpath := hstands.getValueAtPath_missing hne rfl hchild
          simp [Heap.has, hp, hdone, hmeta, hhas, hpath]

/-- The own names. -/
theorem Sound.ownKeys (h : Sound realm data s) (hp : s.heap.proxies[i]? = some p)
    (hslip : p.materialized = true → ∀ key, (i, key) ∉ s.missing) :
    Agrees realm data s (s.heap.ownKeys i).1 (.keys ((s.heap.ownKeys i).2.contains ·)) s.copy
      (.keys fun key => ((s.copy p.basePath).view.own key).isSome) s.missing := by
  obtain ⟨value, hstands⟩ := h.stands i p hp
  have hkeys : ∀ names : List String,
      (∀ key, key ∈ names ↔ ((s.copy p.basePath).view.own key).isSome) →
      (Answer.keys (names.contains ·) : Answer (CopyRef X)) =
        .keys fun key => ((s.copy p.basePath).view.own key).isSome := by
    intro names hnames
    refine congrArg Answer.keys (funext fun key => ?_)
    rw [Bool.eq_iff_iff, List.contains_iff_mem]
    exact hnames key
  cases hdone : p.materialized with
  | true =>
    have hheap : s.heap.ownKeys i = (s.heap, p.target.ownKeys) := by
      simp [Heap.ownKeys, hp, hdone]
    rw [hheap]
    refine ⟨h, List.prefix_refl _, hkeys _ fun key => ?_⟩
    rw [hstands.written hdone, own_shown s i p (hslip hdone key), Option.isSome_map]
    exact JsObject.mem_ownKeys
  | false =>
    match value, hstands.fits with
    | .array items, hmeta =>
      have hmeta : p.proxyMeta = .array items.length := hmeta
      have hheap : s.heap.ownKeys i =
          (s.heap, (List.range items.length).map toString ++ ["length"]) := by
        simp only [Heap.ownKeys, hp, hdone, hmeta, Bool.false_eq_true, if_false]
      rw [hheap]
      refine ⟨h, List.prefix_refl _, hkeys _ fun key => ?_⟩
      rw [h.copy_eq hp hstands hdone]
      by_cases hlength : key = "length"
      · subst hlength
        rw [own_initialCopy_length]
        simp
      · have hlength' : ¬ (p.target.isArray = true ∧ key = "length") := fun hboth => hlength hboth.2
        rw [own_initialCopy hstands hlength', Option.isSome_map, Option.isSome_iff_exists,
          List.mem_append, List.mem_map]
        constructor
        · rintro (⟨idx, hidx, rfl⟩ | hmem)
          · exact ⟨_, ownValue_array.mpr ⟨idx, rfl,
              List.getElem?_eq_getElem (List.mem_range.mp hidx)⟩⟩
          · exact absurd (List.mem_singleton.mp hmem) hlength
        · rintro ⟨child, hchild⟩
          obtain ⟨idx, hkey, hitem⟩ := ownValue_array.mp hchild
          exact Or.inl ⟨idx, List.mem_range.mpr (List.getElem?_eq_some_iff.mp hitem).1, hkey⟩
    | .object fields, _ =>
      obtain ⟨hnames, hsound, hpaths, -⟩ := h.resolveObjectKeys hp hstands
      obtain ⟨keys, hmeta, harray⟩ := hstands.object
      have hlength : ∀ key, ¬ (p.target.isArray = true ∧ key = "length") := fun key hboth => by
        simp [harray] at hboth
      have hheap : s.heap.ownKeys i = s.heap.resolveObjectKeys i p := by
        simp only [Heap.ownKeys, hp, hdone, hmeta, Bool.false_eq_true, if_false]
      rw [hheap]
      refine ⟨hsound, hpaths ▸ List.prefix_refl _, hkeys _ fun key => ?_⟩
      rw [h.copy_eq hp hstands hdone, own_initialCopy hstands (hlength key), Option.isSome_map,
        hnames, ownValue_object]

/-! ## Runs -/

/-- One operation that is no slip. -/
theorem Sound.step (h : Sound realm data s) {e : Exchange X}
    (hs : (system realm data basePath).step s e t) (hslip : ¬ Slip realm s e) :
    Sound realm data t ∧ e.answer = e.copyAnswer := by
  obtain ⟨path, answer, hpath, hheld, happly, hanswer, hcopy, hmissing⟩ := hs
  rw [Heap.paths, List.getElem?_map, Option.map_eq_some_iff] at hpath
  obtain ⟨p, hp, rfl⟩ := hpath
  have hagrees : Agrees realm data s (s.heap.apply realm e.index e.operation).1
      (s.heap.apply realm e.index e.operation).2
      (s.copy.apply realm p.basePath (e.operation.map s.heap.name)).1
      (s.copy.apply realm p.basePath (e.operation.map s.heap.name)).2
      (missingAfter realm s e.index e.operation) := by
    cases hop : e.operation with
    | get key =>
      refine h.get hp fun hinherited => ?_
      rw [Slip, hop] at hslip
      constructor
      · exact fun hmem => hslip ⟨p, hp, hinherited, Or.inl hmem⟩
      · intro hlazy value hvalue
        by_contra hown
        exact hslip ⟨p, hp, hinherited, Or.inr ⟨hlazy, value, hvalue,
          Option.isSome_iff_ne_none.mpr hown⟩⟩
    | set key v =>
      rw [hop] at hheld
      refine h.set hp hheld fun q j hq haccessor hv => ?_
      rw [Slip, hop] at hslip
      exact hslip ⟨q, j, hq, haccessor, hv⟩
    | delete key => exact h.delete hp
    | has key =>
      rw [Slip, hop] at hslip
      refine ⟨h, List.prefix_refl _, congrArg Answer.done (h.has hp fun hmem hnone => ?_)⟩
      exact hslip ⟨p, hp, hmem, hnone⟩
    | ownKeys =>
      rw [Slip, hop] at hslip
      exact h.ownKeys hp fun hdone key hmem => hslip ⟨p, key, hp, hdone, hmem⟩
  rw [happly, hcopy, ← hmissing] at hagrees
  exact ⟨hagrees.sound, hanswer.trans hagrees.answer⟩

/-- The proxy that is made for a value stands for the copy of it. -/
theorem Sound.initial (hinit : (system realm data basePath).init s) : Sound realm data s := by
  obtain ⟨value, proxyMeta, hvalue, hfits, rfl⟩ := hinit
  have honly : ∀ (i : ℕ) p, (Heap.createDeepLazyProxy realm ⟨data, []⟩ basePath
      proxyMeta).1.proxies[i]? = some p → p = newProxy realm basePath proxyMeta := by
    intro i p hp
    exact List.mem_singleton.mp (List.mem_of_getElem? hp)
  have hempty : ∀ key,
      (JsObject.empty proxyMeta.isArray : JsObject (Ref X)).props.get? key = none := fun _ => rfl
  refine ⟨rfl, List.nodup_singleton _, fun i p hp => ?_, fun _ _ => rfl,
    fun i key hmem => absurd hmem List.not_mem_nil⟩
  obtain rfl := honly i p hp
  refine ⟨value, hvalue, hfits, rfl, fun _ => rfl, fun keys hkeys => ?_, fun key w hw => ?_,
    fun _ key _ path hpath hprefix => ?_, fun _ => rfl, fun _ key w hw => ?_, fun hdone => ?_⟩
  · cases hkeys
  · rw [newProxy, hempty] at hw
    cases hw
  · rw [List.mem_singleton.mp hpath] at hprefix
    exact absurd hprefix.length_le (by simp [newProxy])
  · rw [newProxy, hempty] at hw
    cases hw
  · cases hdone

/-- **Runs without a slip**: every operation returns what it returns on the deep copy, different
proxies stand for different objects of the copy, and the data of the host stays. -/
theorem lazyProxy_run {basePath : List String} {es : List (Exchange X)}
    (hinit : (system realm data basePath).init s)
    (h : ((system realm data basePath).restrict fun s e _ => ¬ Slip realm s e).Run s es t) :
    (∀ e ∈ es, e.answer = e.copyAnswer) ∧ t.heap.paths.Nodup ∧ t.heap.data = data := by
  have hsound : Sound realm data t ∧ ∀ e ∈ es, e.answer = e.copyAnswer := by
    refine h.history_invariant
      (I := fun es t => Sound realm data t ∧ ∀ e ∈ es, e.answer = e.copyAnswer)
      ⟨.initial hinit, fun e he => absurd he List.not_mem_nil⟩ ?_
    rintro es u e v ⟨hu, hes⟩ ⟨hstep, hslip⟩
    obtain ⟨hv, he⟩ := hu.step hstep hslip
    refine ⟨hv, fun e' he' => ?_⟩
    rcases List.mem_append.mp he' with hold | hnew
    · exact hes e' hold
    · rw [List.mem_singleton.mp hnew]
      exact he
  exact ⟨hsound.2, hsound.1.nodup, hsound.1.host⟩

/-! ## Examples of runs -/

def Heap.pathAt (heap : Heap X) (i : ℕ) : List String := heap.paths[i]?.getD []

/-- What an operation returns on the proxy and on the copy. -/
def Side.exchange (realm : Realm X) (s : Side X) (i : ℕ) (operation : Operation (Ref X)) :
    Exchange X where
  index := i
  operation
  answer := (s.heap.apply realm i operation).2.map (s.heap.apply realm i operation).1.name
  copyAnswer := (s.copy.apply realm (s.heap.pathAt i) (operation.map s.heap.name)).2

noncomputable def Side.next (realm : Realm X) (s : Side X) (i : ℕ)
    (operation : Operation (Ref X)) : Side X where
  heap := (s.heap.apply realm i operation).1
  copy := (s.copy.apply realm (s.heap.pathAt i) (operation.map s.heap.name)).1
  missing := missingAfter realm s i operation

theorem step_next {operation : Operation (Ref X)} {path : List String}
    (hpath : s.heap.paths[i]? = some path) (hheld : operation.IsHeld s.heap) :
    (system realm data basePath).step s (s.exchange realm i operation)
      (s.next realm i operation) := by
  have hat : s.heap.pathAt i = path := by rw [Heap.pathAt, hpath, Option.getD_some]
  exact ⟨path, _, hpath, hheld, rfl, rfl, by rw [← hat]; rfl, rfl⟩

/-- Objects that inherit `constructor` and `__proto__`. -/
def sampleRealm : Realm ℕ where
  prototype isArray := if isArray then 1 else 0
  find _ key :=
    if key = "__proto__" then some .accessor
    else if key = "constructor" then some (.value (.reference 2))
    else none
  find_accessor x key h := by
    split_ifs at h with hkey
    · exact hkey
    · cases h
  find_prototype isArray := rfl

def sampleStart (data : JsonValue) : Side ℕ :=
  ⟨(Heap.createDeepLazyProxy sampleRealm ⟨data, []⟩ [] (.object none)).1,
    deepCopy sampleRealm data, []⟩

theorem init_sampleStart (fields : List (String × JsonValue)) :
    (system sampleRealm (.object fields) []).init (sampleStart (.object fields)) :=
  ⟨.object fields, .object none, rfl, Or.inl rfl, rfl⟩

def sampleFields : List (String × JsonValue) := [("list", .array [.number 1, .number 2])]

/-- The array is read, and then written. -/
theorem lazyProxy_run_write : ∃ (es : List (Exchange ℕ)) (t : Side ℕ),
    es.map Exchange.operation = [.get "list", .set "0" (.primitive .null)] ∧
      (∀ e ∈ es, e.answer = e.copyAnswer) ∧ t.heap.paths.Nodup ∧
        t.heap.data = .object sampleFields := by
  have hrun : ((system sampleRealm (.object sampleFields) []).restrict
      fun s e _ => ¬ Slip sampleRealm s e).Run (sampleStart (.object sampleFields))
      [(sampleStart (.object sampleFields)).exchange sampleRealm 0 (.get "list"),
        ((sampleStart (.object sampleFields)).next sampleRealm 0 (.get "list")).exchange
          sampleRealm 1 (.set "0" (.primitive .null))]
      (((sampleStart (.object sampleFields)).next sampleRealm 0 (.get "list")).next
        sampleRealm 1 (.set "0" (.primitive .null))) := by
    refine .restrict_cons (step_next rfl trivial) ?_ <|
      .restrict_cons (step_next rfl trivial) ?_ .nil
    · rintro ⟨p, hp, hinherited, -⟩
      cases hp
      cases hinherited
    · rintro ⟨p, j, -, -, hv⟩
      cases hv
  exact ⟨_, _, rfl, lazyProxy_run (init_sampleStart sampleFields) hrun⟩

/-- An own name that is inherited as well is not read. A name that was read while it was missing is
there afterwards. -/
theorem not_private :
    (∃ (es : List (Exchange ℕ)) (t : Side ℕ),
      (system sampleRealm (.object [("constructor", .string "x")]) []).Run
        (sampleStart (.object [("constructor", .string "x")])) es t ∧
      ∃ e ∈ es, e.operation = .get "constructor" ∧ e.answer ≠ e.copyAnswer) ∧
    ∃ (es : List (Exchange ℕ)) (t : Side ℕ),
      (system sampleRealm (.object []) []).Run (sampleStart (.object [])) es t ∧
      ∃ e ∈ es, e.operation = .has "a" ∧ e.answer ≠ e.copyAnswer := by
  have hread : (system sampleRealm (.object [("constructor", .string "x")]) []).Run
      (sampleStart (.object [("constructor", .string "x")]))
      [(sampleStart (.object [("constructor", .string "x")])).exchange sampleRealm 0
        (.get "constructor")]
      ((sampleStart (.object [("constructor", .string "x")])).next sampleRealm 0
        (.get "constructor")) :=
    System.Run.nil.snoc (step_next rfl trivial)
  have hmissing : (system sampleRealm (.object []) []).Run (sampleStart (.object []))
      [(sampleStart (.object [])).exchange sampleRealm 0 (.get "a"),
        ((sampleStart (.object [])).next sampleRealm 0 (.get "a")).exchange sampleRealm 0
          (.has "a")]
      (((sampleStart (.object [])).next sampleRealm 0 (.get "a")).next sampleRealm 0 (.has "a")) :=
    System.Run.cons (step_next rfl trivial) (System.Run.nil.snoc (step_next rfl trivial))
  refine ⟨⟨_, _, hread, _, List.mem_singleton_self _, rfl, fun h => ?_⟩,
    _, _, hmissing, _, List.mem_cons_of_mem _ (List.mem_singleton_self _), rfl, fun h => ?_⟩
  · change (Answer.value (.reference (.external 2)) : Answer (CopyRef ℕ)) =
      .value (.primitive (.string "x")) at h
    cases h
  · change (Answer.done true : Answer (CopyRef ℕ)) = .done false at h
    cases h

end N8n.ExpressionRuntime.LazyProxy
