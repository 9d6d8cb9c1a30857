import N8n.ExpressionRuntime.LazyProxyCopy

/-!
# Fetching keeps the invariant

A property that is fetched is cached with a proxy of its own if it is an array or an object, and
materializing fetches all properties that are not cached.

## Main results

* `Sound.cache`: a property is cached, with or without a new proxy
* `Sound.fetch`: what is fetched is what the copy has
* `Sound.materialize`: after the first write everything is in the target
-/

namespace N8n.ExpressionRuntime.LazyProxy

open DataProxy (JsValue JsObject View arrayIndex)
open StaticData (Primitive)

variable {X : Type} {realm : Realm X} {data : JsonValue} {s t : Side X} {i j : ℕ} {p q : Proxy X}
  {value : JsonValue} {heap : Heap X} {f : Proxy X → Proxy X}
  {g : JsObject (Ref X) → JsObject (Ref X)} {fields : List (String × JsonValue)}
  {new : List (Proxy X)} {items : List JsonValue} {keys : List String} {basePath : List String}
  {ρ : Type}

/-! ## Proxies by their index -/

theorem paths_modify (hf : ∀ p, (f p).basePath = p.basePath) :
    (heap.modify i f).paths = heap.paths := by
  unfold Heap.paths Heap.modify
  refine List.ext_getElem? fun j => ?_
  rw [List.getElem?_map, List.getElem?_map, List.getElem?_modify]
  cases heap.proxies[j]? with
  | none => rfl
  | some p =>
    by_cases h : i = j
    · simp [h, hf]
    · simp [h]

theorem getElem?_modify (h : (heap.modify i f).proxies[j]? = some q) :
    ∃ p, heap.proxies[j]? = some p ∧ q = if i = j then f p else p := by
  unfold Heap.modify at h
  rw [List.getElem?_modify, Option.map_eq_map, Option.map_eq_some_iff] at h
  obtain ⟨p, hp, rfl⟩ := h
  refine ⟨p, hp, ?_⟩
  by_cases h : i = j
  · simp [h]
  · simp [h]

theorem getElem?_modify_self (h : heap.proxies[i]? = some p) :
    (heap.modify i f).proxies[i]? = some (f p) := by
  unfold Heap.modify
  rw [List.getElem?_modify, h]
  simp

theorem getElem?_modify_of_ne (hne : i ≠ j) : (heap.modify i f).proxies[j]? = heap.proxies[j]? := by
  unfold Heap.modify
  rw [List.getElem?_modify]
  simp [hne]

theorem getElem?_paths (h : heap.proxies[i]? = some p) : heap.paths[i]? = some p.basePath := by
  rw [Heap.paths, List.getElem?_map, h]
  rfl

theorem mem_paths (h : heap.proxies[i]? = some p) : p.basePath ∈ heap.paths :=
  List.mem_of_getElem? (getElem?_paths h)

/-- Different proxies have different paths. -/
theorem Sound.index_eq (h : Sound realm data s) (hp : s.heap.proxies[i]? = some p)
    (hq : s.heap.proxies[j]? = some q) (hpath : p.basePath = q.basePath) : i = j := by
  have hlt := (List.getElem?_eq_some_iff.mp (getElem?_paths hp)).1
  refine (List.getElem?_inj hlt h.nodup).mp ?_
  rw [getElem?_paths hp, getElem?_paths hq, hpath]

theorem IsHeld.mono {heap heap' : Heap X} (h : heap.paths <+: heap'.paths)
    {v : JsValue (Ref X)} (hv : IsHeld heap v) : IsHeld heap' v := by
  match v, hv with
  | .reference (.proxy j), hv =>
    have hle := h.length_le
    unfold Heap.paths at hle
    rw [List.length_map, List.length_map] at hle
    exact Nat.lt_of_lt_of_le hv hle
  | .reference (.external x), _ => trivial
  | .primitive p, _ => trivial
  | .builtin ofArray name, _ => trivial

/-- Proxies keep their names. -/
theorem IsHeld.map_name {heap heap' : Heap X} (h : heap.paths <+: heap'.paths)
    {v : JsValue (Ref X)} (hv : IsHeld heap v) : v.map heap'.name = v.map heap.name := by
  match v, hv with
  | .reference (.proxy j), hv =>
    obtain ⟨rest, hrest⟩ := h
    have hlt : j < heap.paths.length := by rwa [Heap.paths, List.length_map]
    simp only [JsValue.map, Heap.name, ← hrest, List.getElem?_append_left hlt]
  | .reference (.external x), _ => rfl
  | .primitive p, _ => rfl
  | .builtin ofArray name, _ => rfl

/-! ## Data -/

theorem member_of_ownValue {key : String} {child : JsonValue}
    (h : ownValue value key = some child) : (Found.data value).member key = .data child := by
  match value, h with
  | .object fields, h =>
    rw [Found.member, h]
    rfl
  | .array items, h =>
    have hlength : key ≠ "length" := by
      rintro rfl
      rw [ownValue_array_length] at h
      cases h
    rw [Found.member, if_neg hlength, h]
    rfl

theorem Fits.ne_null {proxyMeta : ProxyMeta} (h : Fits value proxyMeta) : value ≠ .null := by
  rintro rfl
  exact h

theorem Fits.isArray {proxyMeta : ProxyMeta} (h : Fits value proxyMeta) :
    isArray value = proxyMeta.isArray := by
  match value, h with
  | .array items, h =>
    rw [show proxyMeta = _ from h]
    rfl
  | .object fields, h => rcases h with rfl | rfl <;> rfl

theorem Sound.deepCopy_eq (h : Sound realm data s) (hstands : Stands realm s i p value) :
    deepCopy realm data p.basePath = initialCopy realm value p.basePath := by
  have hpath := hstands.path
  rw [h.host] at hpath
  rw [deepCopy, hpath]

/-- Before the first write the object of the copy is as in the data. -/
theorem Sound.copy_eq (h : Sound realm data s) (hp : s.heap.proxies[i]? = some p)
    (hstands : Stands realm s i p value) (hlazy : p.materialized = false) :
    s.copy p.basePath = initialCopy realm value p.basePath := by
  rw [← h.deepCopy_eq hstands]
  refine h.untouched _ fun j q hq hpath => ?_
  obtain rfl := h.index_eq hp hq hpath.symm
  rw [hp, Option.some.injEq] at hq
  rw [← hq]
  exact hlazy

/-- The object of a proxy and a property that was read while it was missing. -/
theorem Sound.missing_at (h : Sound realm data s) (hp : s.heap.proxies[i]? = some p)
    {key : String} (hmem : (i, key) ∈ s.missing) : p.target.isArray = false ∧
      p.target.props.get? key = some .undefined ∧ key ≠ "__proto__" ∧
        (s.copy p.basePath).view.get? key = none := by
  obtain ⟨q, hq, hmissing⟩ := h.missing i key hmem
  obtain rfl := Option.some.inj (hp.symm.trans hq)
  exact hmissing

theorem Stands.object (h : Stands realm s i p (.object fields)) :
    ∃ keys, p.proxyMeta = .object keys ∧ p.target.isArray = false := by
  rcases h.fits with hmeta | hmeta <;> exact ⟨_, hmeta, by rw [h.isArray, hmeta]; rfl⟩

/-! ## Frames -/

/-- What stays of a proxy when another one changes. -/
theorem Stands.frame (h : Stands realm s j q value) (hdata : t.heap.data = s.heap.data)
    (hpaths : s.heap.paths <+: t.heap.paths)
    (hmissing : ∀ key, (j, key) ∈ t.missing ↔ (j, key) ∈ s.missing)
    (hcopy : t.copy q.basePath = s.copy q.basePath)
    (hfresh : q.materialized = false → ∀ key, q.target.props.get? key = none →
      ∀ path ∈ t.heap.paths, path ∈ s.heap.paths ∨ ¬ q.basePath ++ [key] <+: path) :
    Stands realm t j q value where
  path := by rw [hdata]; exact h.path
  fits := h.fits
  isArray := h.isArray
  length := h.length
  fetchedKeys := h.fetchedKeys
  held key cached hcached := (h.held key cached hcached).mono hpaths
  fresh hlazy key hkey path hpath := by
    rcases hfresh hlazy key hkey path hpath with hold | hnot
    · exact h.fresh hlazy key hkey path hold
    · exact hnot
  prototype := h.prototype
  cached hlazy key cached hcached := by
    rcases h.cached hlazy key cached hcached with ⟨child, hchild, hname⟩ | ⟨hmem, hnone⟩
    · refine Or.inl ⟨child, hchild, ?_⟩
      rw [(h.held key cached hcached).map_name hpaths, hname]
    · exact Or.inr ⟨(hmissing key).mpr hmem, hnone⟩
  written hdone := by
    rw [hcopy, h.written hdone, Side.shown, Side.shown, Copied.mk.injEq, View.mk.injEq]
    refine ⟨⟨rfl, rfl, funext fun key => ?_⟩, rfl⟩
    simp only [hmissing key]
    cases hcached : q.target.props.get? key with
    | none => rfl
    | some cached => simp only [Option.map_some, (h.held key cached hcached).map_name hpaths]

/-! ## Caching -/

theorem get?_cached {target : JsObject ρ} {key key' : String} {v : JsValue ρ}
    (h : ¬ (target.isArray ∧ key = "length")) :
    ((target.set key v).getD target).props.get? key' =
      if key' = key then some v else target.props.get? key' := by
  rw [JsObject.set, dif_neg h, Option.getD_some]
  exact OrderedMap.get?_set

theorem isArray_cached {target : JsObject ρ} {key : String} {v : JsValue ρ}
    (h : ¬ (target.isArray ∧ key = "length")) :
    ((target.set key v).getD target).isArray = target.isArray := by
  rw [JsObject.set, dif_neg h, Option.getD_some]
  rfl

theorem length_cached {target : JsObject ρ} {key : String} {v : JsValue ρ}
    (harray : target.isArray = false) :
    ((target.set key v).getD target).length = target.length := by
  have h : ¬ (target.isArray ∧ key = "length") := fun h => by simp [harray] at h
  rw [JsObject.set, dif_neg h, Option.getD_some]
  exact if_neg (by simp [harray])

/-- A proxy that was just made. -/
def newProxy (realm : Realm X) (basePath : List String) (proxyMeta : ProxyMeta) : Proxy X where
  basePath
  proxyMeta
  fetchedKeys := none
  target := .empty proxyMeta.isArray
  prototype := some (realm.prototype proxyMeta.isArray)
  materialized := false

def IsNew (realm : Realm X) (path : List String) (child : JsonValue) (new : List (Proxy X)) :
    Prop :=
  new = [] ∨ ∃ proxyMeta, Fits child proxyMeta ∧ new = [newProxy realm path proxyMeta]

/-- What a child becomes: a primitive value stays, and any other gets a new proxy. -/
def Materializes (realm : Realm X) (heap : Heap X) (basePath : List String) (key : String)
    (child : JsonValue) (result : Heap X × Value X) : Prop :=
  ∃ new, result.1 = { heap with proxies := heap.proxies ++ new } ∧
    IsNew realm (basePath ++ [key]) child new ∧
    ∀ heap' : Heap X, heap'.paths = heap.paths ++ new.map Proxy.basePath →
      IsHeld heap' result.2 ∧ result.2.map heap'.name = copyValue (basePath ++ [key]) child

theorem materializes_primitive {key : String} {child : JsonValue} {p : Primitive}
    (hcopy : copyValue (basePath ++ [key]) child = (.primitive p : JsValue (CopyRef X))) :
    Materializes realm heap basePath key child (heap, .primitive p) := by
  refine ⟨[], ?_, Or.inl rfl, fun heap' _ => ⟨trivial, ?_⟩⟩
  · rw [List.append_nil]
  · rw [hcopy]
    rfl

theorem materializes_proxy {key : String}
    {child : JsonValue} {proxyMeta : ProxyMeta} (hfits : Fits child proxyMeta)
    (hcopy : copyValue (basePath ++ [key]) child =
      (.reference (.copy (basePath ++ [key])) : JsValue (CopyRef X))) :
    Materializes realm heap basePath key child
      (heap.createDeepLazyProxy realm (basePath ++ [key]) proxyMeta) := by
  refine ⟨[newProxy realm (basePath ++ [key]) proxyMeta], rfl, Or.inr ⟨proxyMeta, hfits, rfl⟩,
    fun heap' hpaths => ?_⟩
  have hnew : heap'.paths[heap.proxies.length]? = some (basePath ++ [key]) := by
    rw [hpaths, List.getElem?_append_right (by rw [Heap.paths, List.length_map])]
    simp [Heap.paths, newProxy]
  constructor
  · have hlt := (List.getElem?_eq_some_iff.mp hnew).1
    rwa [Heap.paths, List.length_map] at hlt
  · rw [hcopy]
    simp only [Heap.createDeepLazyProxy, JsValue.map, Heap.name, hnew, Option.getD_some]

theorem materializeChild_transfer (heap : Heap X) (basePath : List String) (key : String)
    (child : JsonValue) :
    Materializes realm heap basePath key child
      (heap.materializeChild realm basePath key (transfer child)) := by
  match child with
  | .null => exact materializes_primitive rfl
  | .bool b => exact materializes_primitive rfl
  | .number n => exact materializes_primitive rfl
  | .string text => exact materializes_primitive rfl
  | .array items =>
    exact @materializes_proxy X realm heap basePath key (.array items) (.array items.length) rfl rfl
  | .object fields =>
    exact @materializes_proxy X realm heap basePath key (.object fields)
      (.object (some (fields.map Prod.fst))) (Or.inr rfl) rfl

def Heap.cached (heap : Heap X) (i : ℕ) (key : String) (v : Value X) (new : List (Proxy X)) :
    Heap X :=
  Heap.modify { heap with proxies := heap.proxies ++ new } i fun p =>
    { p with target := (p.target.set key v).getD p.target }

theorem paths_cached {key : String} {v : Value X} :
    (heap.cached i key v new).paths = heap.paths ++ new.map Proxy.basePath := by
  have hpaths : (heap.cached i key v new).paths =
      Heap.paths { heap with proxies := heap.proxies ++ new } := paths_modify fun _ => rfl
  rw [hpaths, Heap.paths, Heap.paths, List.map_append]

/-- A proxy after a property was cached: one that was there, the one that caches it, or a new
one. -/
theorem getElem?_cached {key : String} {v : Value X} (hp : heap.proxies[i]? = some p)
    (hq : (heap.cached i key v new).proxies[j]? = some q) :
    (i = j ∧ q = { p with target := (p.target.set key v).getD p.target }) ∨
      (i ≠ j ∧ heap.proxies[j]? = some q) ∨ (heap.proxies[j]? = none ∧ q ∈ new) := by
  obtain ⟨r, hr, rfl⟩ := getElem?_modify hq
  rw [List.getElem?_append] at hr
  split at hr
  · by_cases hij : i = j
    · subst hij
      rw [hp, Option.some.injEq] at hr
      subst hr
      exact Or.inl ⟨rfl, if_pos rfl⟩
    · rw [if_neg hij]
      exact Or.inr (Or.inl ⟨hij, hr⟩)
  next hge =>
    have hnone : heap.proxies[j]? = none := List.getElem?_eq_none (Nat.le_of_not_lt hge)
    have hij : i ≠ j := by
      rintro rfl
      rw [hp] at hnone
      cases hnone
    rw [if_neg hij]
    exact Or.inr (Or.inr ⟨hnone, List.mem_of_getElem? hr⟩)

theorem prefix_concat {α : Type} {path path' : List α} {key key' : α}
    (h : path ++ [key] <+: path' ++ [key']) :
    (path = path' ∧ key = key') ∨ path ++ [key] <+: path' := by
  rcases List.prefix_concat_iff.mp h with heq | hprefix
  · rw [List.append_inj_left' heq rfl, List.append_inj_right' heq rfl |> List.singleton_inj.mp]
    exact Or.inl ⟨rfl, rfl⟩
  · exact Or.inr hprefix

theorem IsNew.path {path : List String} {child : JsonValue} (h : IsNew realm path child new)
    {path' : List String} (hmem : path' ∈ new.map Proxy.basePath) : path' = path := by
  rcases h with rfl | ⟨proxyMeta, -, rfl⟩
  · exact absurd hmem List.not_mem_nil
  · exact List.mem_singleton.mp hmem

/-- Paths stay distinct: the new one is below a property that was not cached. -/
theorem IsNew.nodup {path : List String} {child : JsonValue} (h : IsNew realm path child new)
    {paths : List (List String)} (hnodup : paths.Nodup) (hfresh : path ∉ paths) :
    (paths ++ new.map Proxy.basePath).Nodup := by
  rcases h with rfl | ⟨proxyMeta, -, rfl⟩
  · simpa using hnodup
  · refine hnodup.append (List.nodup_singleton _) ?_
    exact List.disjoint_singleton.mpr hfresh

section Cache

variable {key : String} {v : Value X} {child : JsonValue} {missing : List (ℕ × String)}

def Side.cached (s : Side X) (i : ℕ) (key : String) (v : Value X) (new : List (Proxy X))
    (missing : List (ℕ × String)) : Side X :=
  { heap := s.heap.cached i key v new, copy := s.copy, missing }

theorem Side.paths_cached : (s.cached i key v new missing).heap.paths =
    s.heap.paths ++ new.map Proxy.basePath :=
  LazyProxy.paths_cached

/-- A proxy that was there is still there. -/
theorem Side.getElem?_cached_old (hq : s.heap.proxies[j]? = some q) :
    (s.cached i key v new missing).heap.proxies[j]? = some (if i = j then
      { q with target := (q.target.set key v).getD q.target } else q) := by
  have hlt := (List.getElem?_eq_some_iff.mp hq).1
  have happend : (s.heap.proxies ++ new)[j]? = some q := by
    rw [List.getElem?_append_left hlt, hq]
  by_cases hij : i = j
  · subst hij
    rw [if_pos rfl]
    exact @getElem?_modify_self X i q { s.heap with proxies := s.heap.proxies ++ new }
      (fun p => { p with target := (p.target.set key v).getD p.target }) happend
  · rw [if_neg hij]
    exact (getElem?_modify_of_ne hij).trans happend

/-- Other proxies stand for what they stood for. -/
theorem Stands.cached_of_ne (h : Sound realm data s) (hp : s.heap.proxies[i]? = some p)
    (hnew : IsNew realm (p.basePath ++ [key]) child new)
    (hmissing : ∀ j key', i ≠ j → ((j, key') ∈ missing ↔ (j, key') ∈ s.missing))
    (hij : i ≠ j) (hq : s.heap.proxies[j]? = some q) (hstands : Stands realm s j q value) :
    Stands realm (s.cached i key v new missing) j q value := by
  refine hstands.frame rfl ?_ (fun key' => hmissing j key' hij) rfl ?_
  · rw [Side.paths_cached]
    exact List.prefix_append _ _
  · intro hlazy' key' hkey' path hpath
    rw [Side.paths_cached, List.mem_append] at hpath
    rcases hpath with hold | hpath
    · exact Or.inl hold
    · obtain rfl := hnew.path hpath
      refine Or.inr fun hprefix => ?_
      -- The new path is below the caching proxy, which is not below an uncached property.
      rcases prefix_concat hprefix with ⟨hsame, -⟩ | hbelow
      · exact hij (h.index_eq hp hq hsame.symm)
      · exact hstands.fresh hlazy' key' hkey' _ (mem_paths hp) hbelow

/-- The proxy that caches stands for what it stood for. -/
theorem Stands.cached_self (hstands : Stands realm s i p value) (hlazy : p.materialized = false)
    (hlength : ¬ (p.target.isArray ∧ key = "length"))
    (hnew : IsNew realm (p.basePath ++ [key]) child new)
    (hmissing : ∀ key', (i, key') ∈ s.missing → (i, key') ∈ missing)
    (hheld : IsHeld (s.cached i key v new missing).heap v)
    (hv : IsCached (s.cached i key v new missing) i p value key v) :
    Stands realm (s.cached i key v new missing) i
      { p with target := (p.target.set key v).getD p.target } value := by
  have hgrow : s.heap.paths <+: (s.cached i key v new missing).heap.paths := by
    rw [Side.paths_cached]
    exact List.prefix_append _ _
  refine ⟨hstands.path, hstands.fits, ?_, ?_, hstands.fetchedKeys, ?_, ?_, hstands.prototype, ?_,
    ?_⟩
  · rw [isArray_cached hlength, hstands.isArray]
  · intro harray
    rw [isArray_cached hlength] at harray
    rw [length_cached harray, hstands.length harray]
  · intro key' w hw
    rw [get?_cached hlength] at hw
    split_ifs at hw with heq
    · rw [← Option.some.inj hw]
      exact hheld
    · exact (hstands.held key' w hw).mono hgrow
  · intro _ key' hkey' path hpath hprefix
    rw [get?_cached hlength] at hkey'
    split_ifs at hkey' with hne
    rw [Side.paths_cached, List.mem_append] at hpath
    rcases hpath with hold | hpath
    · exact hstands.fresh hlazy key' hkey' path hold hprefix
    · obtain rfl := hnew.path hpath
      rcases prefix_concat hprefix with ⟨-, hsame⟩ | hbelow
      · exact hne hsame
      · exact absurd hbelow.length_le (by simp)
  · intro _ key' w hw
    rw [get?_cached hlength] at hw
    split_ifs at hw with heq
    · rw [← Option.some.inj hw, heq]
      exact hv
    · rcases hstands.cached hlazy key' w hw with ⟨child', hchild, hname⟩ | ⟨hmem, hnone⟩
      · refine Or.inl ⟨child', hchild, ?_⟩
        have hstays := (hstands.held key' w hw).map_name hgrow
        exact hstays.trans hname
      · exact Or.inr ⟨hmissing key' hmem, hnone⟩
  · intro hdone
    rw [hlazy] at hdone
    cases hdone

/-- A new proxy stands for the child. -/
theorem Stands.cached_new (hlazy : p.materialized = false)
    (hstands : Stands realm s i p value) (hkey : p.target.props.get? key = none)
    (hchild : ownValue value key = some child)
    (hnew : IsNew realm (p.basePath ++ [key]) child new) (hq : q ∈ new) :
    Stands realm (s.cached i key v new missing) j q child := by
  rcases hnew with rfl | ⟨proxyMeta, hfits, rfl⟩
  · exact absurd hq List.not_mem_nil
  rw [List.mem_singleton.mp hq]
  have hempty : ∀ key',
      (JsObject.empty proxyMeta.isArray : JsObject (Ref X)).props.get? key' = none := fun _ => rfl
  refine ⟨?_, hfits, rfl, fun _ => rfl, fun keys hkeys => ?_, fun key' w hw => ?_,
    fun _ key' _ path hpath hprefix => ?_, fun _ => rfl, fun _ key' w hw => ?_, fun hdone => ?_⟩
  · refine (navigate_append hstands.path hstands.fits.ne_null key).trans ?_
    rw [navigate_singleton, member_of_ownValue hchild]
  · cases hkeys
  · rw [newProxy, hempty] at hw
    cases hw
  · rw [Side.paths_cached, List.mem_append] at hpath
    rcases hpath with hold | hpath
    · exact hstands.fresh hlazy key hkey path hold ((List.prefix_append _ _).trans hprefix)
    · rw [List.mem_singleton.mp hpath] at hprefix
      exact absurd hprefix.length_le (by simp)
  · rw [newProxy, hempty] at hw
    cases hw
  · cases hdone

/-- A property is cached, with or without a new proxy. -/
theorem Sound.cache (h : Sound realm data s) (hp : s.heap.proxies[i]? = some p)
    (hstands : Stands realm s i p value) (hlazy : p.materialized = false)
    (hlength : ¬ (p.target.isArray ∧ key = "length")) (hkey : p.target.props.get? key = none)
    (hnew : new = [] ∨ ∃ child, ownValue value key = some child ∧
      IsNew realm (p.basePath ++ [key]) child new)
    (hmissing : missing = s.missing ∨ (missing = (i, key) :: s.missing ∧ v = .undefined ∧
      p.target.isArray = false ∧ key ≠ "__proto__" ∧ ownValue value key = none))
    (hheld : IsHeld (s.cached i key v new missing).heap v)
    (hv : IsCached (s.cached i key v new missing) i p value key v) :
    Sound realm data (s.cached i key v new missing) := by
  have hsome : ∃ child, IsNew realm (p.basePath ++ [key]) child new := by
    rcases hnew with rfl | ⟨child, -, hnew⟩
    · exact ⟨.null, Or.inl rfl⟩
    · exact ⟨child, hnew⟩
  obtain ⟨child', hnew'⟩ := hsome
  have hsub : ∀ e ∈ s.missing, e ∈ missing := by
    rcases hmissing with rfl | ⟨rfl, -⟩
    · exact fun e he => he
    · exact fun e he => List.mem_cons_of_mem _ he
  have hother : ∀ j key', i ≠ j → ((j, key') ∈ missing ↔ (j, key') ∈ s.missing) := by
    intro j key' hij
    rcases hmissing with rfl | ⟨rfl, -⟩
    · rfl
    · rw [List.mem_cons, Prod.mk.injEq]
      exact or_iff_right fun heq => hij heq.1.symm
  -- A name that was missing was cached before, so that it is another one.
  have hold : ∀ j key', (j, key') ∈ s.missing →
      ∃ q, (s.cached i key v new missing).heap.proxies[j]? = some q ∧ q.target.isArray = false ∧
        q.target.props.get? key' = some .undefined ∧ key' ≠ "__proto__" ∧
          (s.copy q.basePath).view.get? key' = none := by
    intro j key' hmem
    obtain ⟨q, hq, harray, hget, hproto, hcopy⟩ := h.missing j key' hmem
    refine ⟨_, Side.getElem?_cached_old hq, ?_⟩
    split_ifs with hij
    · subst hij
      rw [hp, Option.some.injEq] at hq
      subst hq
      have hne : key' ≠ key := by
        rintro rfl
        rw [hkey] at hget
        cases hget
      refine ⟨?_, ?_, hproto, hcopy⟩
      · rw [isArray_cached hlength, harray]
      · rw [get?_cached hlength, if_neg hne, hget]
    · exact ⟨harray, hget, hproto, hcopy⟩
  refine ⟨h.host, ?_, fun j q hq => ?_, fun path hpath => ?_, fun j key' hmem => ?_⟩
  · rw [Side.paths_cached]
    refine hnew'.nodup h.nodup fun hmem => ?_
    exact hstands.fresh hlazy key hkey _ hmem (List.prefix_refl _)
  · rcases getElem?_cached hp hq with ⟨rfl, rfl⟩ | ⟨hij, hold⟩ | ⟨-, hmem⟩
    · exact ⟨value, hstands.cached_self hlazy hlength hnew' (fun key' => hsub _) hheld hv⟩
    · obtain ⟨value', hvalue⟩ := h.stands j q hold
      exact ⟨value', hvalue.cached_of_ne h hp hnew' hother hij hold⟩
    · rcases hnew with rfl | ⟨child, hchild, hnew⟩
      · exact absurd hmem List.not_mem_nil
      · exact ⟨child, Stands.cached_new hlazy hstands hkey hchild hnew hmem⟩
  · refine h.untouched path fun j q hq hbase => ?_
    have hnow := hpath j _ (Side.getElem?_cached_old hq)
    split_ifs at hnow
    · exact hnow hbase
    · exact hnow hbase
  · rcases hmissing with rfl | ⟨rfl, rfl, harray, hproto, hnone⟩
    · exact hold j key' hmem
    · rcases List.mem_cons.mp hmem with heq | hmem
      · obtain ⟨rfl, rfl⟩ := Prod.mk.inj heq
        refine ⟨_, Side.getElem?_cached_old hp, ?_⟩
        rw [if_pos rfl]
        refine ⟨?_, ?_, hproto, ?_⟩
        · rw [isArray_cached hlength, harray]
        · rw [get?_cached hlength, if_pos rfl]
        · change (s.copy p.basePath).view.get? key' = none
          rw [h.copy_eq hp hstands hlazy]
          simp [initialCopy, hnone]
      · exact hold j key' hmem

end Cache

/-! ## Fetching -/

/-- The value that a proxy stands for is the one at its path. -/
theorem Stands.value_eq {value' : JsonValue} (h : Stands realm s i p value)
    (h' : Stands realm t j q value') (hdata : t.heap.data = s.heap.data)
    (hpath : q.basePath = p.basePath) : value' = value := by
  have hq := h'.path
  rw [hdata, hpath, h.path] at hq
  exact (Found.data.inj hq).symm

theorem Stands.ne_length {key : String} {child : JsonValue} (h : Stands realm s i p value)
    (hchild : ownValue value key = some child) : ¬ (p.target.isArray ∧ key = "length") := by
  rintro ⟨harray, rfl⟩
  rw [h.isArray, ← h.fits.isArray] at harray
  match value, harray, hchild with
  | .array items, _, hchild =>
    rw [ownValue_array_length] at hchild
    cases hchild

/-- The proxy that fetched is as it was but for what it cached. -/
structure Fetched (realm : Realm X) (data : JsonValue) (s : Side X) (i : ℕ) (p : Proxy X)
    (key : String) (child : JsonValue) (result : Heap X × Value X) : Prop where
  sound : Sound realm data { s with heap := result.1 }
  paths : s.heap.paths <+: result.1.paths
  proxy : result.1.proxies[i]? =
    some { p with target := (p.target.set key result.2).getD p.target }
  held : IsHeld result.1 result.2
  name : result.2.map result.1.name = copyValue (p.basePath ++ [key]) child

/-- What is fetched is what the copy has. -/
theorem Sound.fetch (h : Sound realm data s) (hp : s.heap.proxies[i]? = some p)
    (hstands : Stands realm s i p value) (hlazy : p.materialized = false) {key : String}
    (hkey : p.target.props.get? key = none) {child : JsonValue}
    (hchild : ownValue value key = some child) :
    Fetched realm data s i p key child
      (s.heap.fetchAndCache realm i p.basePath key (transfer child)) := by
  obtain ⟨new, hheap, hnew, hvalue⟩ :=
    @materializeChild_transfer X realm s.heap p.basePath key child
  set v := (s.heap.materializeChild realm p.basePath key (transfer child)).2 with hv
  have hresult : s.heap.fetchAndCache realm i p.basePath key (transfer child) =
      (s.heap.cached i key v new, v) := by
    rw [Heap.fetchAndCache, hheap]
    rfl
  obtain ⟨hheld, hname⟩ := hvalue (s.heap.cached i key v new) paths_cached
  rw [hresult]
  have hself := @Side.getElem?_cached_old X s i i p new key v s.missing hp
  rw [if_pos rfl] at hself
  have hgrow : s.heap.paths <+: (s.heap.cached i key v new).paths := by
    rw [paths_cached]
    exact List.prefix_append _ _
  refine ⟨?_, hgrow, hself, hheld, hname⟩
  exact h.cache hp hstands hlazy (hstands.ne_length hchild) hkey (Or.inr ⟨child, hchild, hnew⟩)
    (Or.inl rfl) hheld (Or.inl ⟨child, hchild, hname⟩)

/-- An element is fetched by its index. -/
theorem getArrayElement_eq {path : List String} {idx : ℕ} {child : JsonValue}
    (h : navigate (.data data) path = .data (.array items)) (hchild : items[idx]? = some child) :
    getArrayElement data path idx = transfer child := by
  rw [getArrayElement, h]
  simp only [hchild, Option.elim_some]

/-- A property is fetched by its path. -/
theorem getValueAtPath_eq {path : List String} {key : String} {child : JsonValue}
    (h : navigate (.data data) path = .data value) (hvalue : value ≠ .null)
    (hchild : ownValue value key = some child) :
    getValueAtPath data (path ++ [key]) = transfer child := by
  rw [getValueAtPath_append h hvalue, member_of_ownValue hchild]

/-! ## Materializing -/

/-- While a proxy is materialized, more and more of its properties are cached. -/
structure Filled (realm : Realm X) (data : JsonValue) (s : Side X) (i : ℕ) (p : Proxy X)
    (heap : Heap X) (keys : List String) : Prop where
  sound : Sound realm data { s with heap }
  paths : s.heap.paths <+: heap.paths
  proxy : ∃ q, heap.proxies[i]? = some q ∧ q.basePath = p.basePath ∧
    q.proxyMeta = p.proxyMeta ∧ q.materialized = false ∧
      ∀ key ∈ keys, q.target.props.get? key ≠ none

theorem hasOwnProperty_eq {key : String} (hq : heap.proxies[i]? = some q)
    (hlength : ¬ (q.target.isArray ∧ key = "length")) :
    heap.hasOwnProperty i key = (q.target.props.get? key).isSome := by
  have hview : ¬ (q.target.view.isArray ∧ key = "length") := hlength
  rw [Heap.hasOwnProperty, hq, Option.any_some, View.own, if_neg hview]
  rfl

/-- One more property is cached. -/
theorem Filled.fetch (h : Filled realm data s i p heap keys) (hhost : s.heap.data = data)
    (hstands : Stands realm s i p value) {key : String} {child : JsonValue}
    (hchild : ownValue value key = some child) :
    Filled realm data s i p
      (if heap.hasOwnProperty i key then heap
        else (heap.fetchAndCache realm i p.basePath key (transfer child)).1) (key :: keys) := by
  obtain ⟨q, hq, hbase, hmeta, hlazy, hkeys⟩ := h.proxy
  obtain ⟨value', hstands'⟩ := h.sound.stands i q hq
  obtain rfl := hstands.value_eq hstands' (h.sound.host.trans hhost.symm) hbase
  have howns := hasOwnProperty_eq hq (hstands'.ne_length hchild)
  split
  next hown =>
    refine ⟨h.sound, h.paths, q, hq, hbase, hmeta, hlazy, fun key' hkey' => ?_⟩
    rcases List.mem_cons.mp hkey' with rfl | hkey'
    · rw [howns] at hown
      exact Option.isSome_iff_ne_none.mp hown
    · exact hkeys key' hkey'
  next hown =>
    have hnone : q.target.props.get? key = none := by
      rw [howns] at hown
      simpa using hown
    have hfetched := h.sound.fetch hq hstands' hlazy hnone hchild
    rw [← hbase]
    refine ⟨hfetched.sound, h.paths.trans hfetched.paths, _, hfetched.proxy, hbase, hmeta, hlazy,
      fun key' hkey' => ?_⟩
    rw [get?_cached (hstands'.ne_length hchild)]
    split_ifs with heq
    · exact Option.some_ne_none _
    · exact hkeys key' ((List.mem_cons.mp hkey').resolve_left heq)

/-- All properties that are told are cached in turn. -/
theorem Filled.foldl {β : Type} {name : β → String} {step : Heap X → β → Heap X} {bs : List β}
    (hstep : ∀ heap b keys, Filled realm data s i p heap keys → b ∈ bs →
      Filled realm data s i p (step heap b) (name b :: keys)) :
    ∀ heap keys, Filled realm data s i p heap keys →
      Filled realm data s i p (bs.foldl step heap) ((bs.map name).reverse ++ keys) := by
  induction bs with
  | nil => exact fun heap keys h => h
  | cons b bs ih =>
    intro heap keys h
    have hfirst := hstep heap b keys h List.mem_cons_self
    have hrest := ih (fun heap b keys h hb => hstep heap b keys h (List.mem_cons_of_mem _ hb)) _ _
      hfirst
    rw [List.map_cons, List.reverse_cons, List.append_assoc]
    exact hrest

theorem Filled.materializeElements {indices : List ℕ} (h : Filled realm data s i p heap [])
    (hhost : s.heap.data = data) (hstands : Stands realm s i p (.array items))
    (hindices : ∀ idx ∈ indices, idx < items.length) :
    Filled realm data s i p (heap.materializeElements realm i p.basePath indices)
      ((indices.map toString).reverse ++ []) := by
  refine Filled.foldl (fun heap idx keys h hidx => ?_) heap [] h
  obtain ⟨item, hitem⟩ : ∃ item, items[idx]? = some item :=
    ⟨_, List.getElem?_eq_getElem (hindices idx hidx)⟩
  have hchild : ownValue (.array items) (toString idx) = some item :=
    ownValue_array.mpr ⟨idx, rfl, hitem⟩
  have hpath := hstands.path
  rw [hhost, ← show heap.data = data from h.sound.host] at hpath
  rw [Heap.fetchAndCacheArrayElement, getArrayElement_eq hpath hitem]
  exact h.fetch hhost hstands hchild

theorem Filled.materializeKeys {names : List String} (h : Filled realm data s i p heap [])
    (hhost : s.heap.data = data) (hstands : Stands realm s i p (.object fields))
    (hnames : ∀ key ∈ names, key ∈ fields.map Prod.fst) :
    Filled realm data s i p (heap.materializeKeys realm i p.basePath names)
      ((names.map id).reverse ++ []) := by
  refine Filled.foldl (fun heap key keys h hkey => ?_) heap [] h
  obtain ⟨child, hchild⟩ := Option.isSome_iff_exists.mp (ownValue_object.mpr (hnames key hkey))
  have hpath := hstands.path
  rw [hhost, ← show heap.data = data from h.sound.host] at hpath
  rw [Heap.fetchAndCacheObjectValue, getValueAtPath_eq hpath hstands.fits.ne_null hchild]
  exact h.fetch hhost hstands hchild

/-- A change of one proxy that keeps its path, and of its object of the copy. -/
theorem Sound.change (h : Sound realm data s) (hp : s.heap.proxies[i]? = some p)
    (hbase : ∀ p, (f p).basePath = p.basePath) {copy : Copy X}
    {missing : List (ℕ × String)} (hcopy : ∀ path ≠ p.basePath, copy path = s.copy path)
    (hother : ∀ j key, i ≠ j → ((j, key) ∈ missing ↔ (j, key) ∈ s.missing))
    (hlazy : (f p).materialized = false →
      p.materialized = false ∧ copy p.basePath = s.copy p.basePath)
    (hstands : ∃ value, Stands realm ⟨s.heap.modify i f, copy, missing⟩ i (f p) value)
    (hmissing : ∀ key, (i, key) ∈ missing → (i, key) ∈ s.missing ∧
      (f p).target.isArray = p.target.isArray ∧
      (f p).target.props.get? key = p.target.props.get? key ∧
      (copy p.basePath).view.get? key = none) :
    Sound realm data ⟨s.heap.modify i f, copy, missing⟩ := by
  have hpaths : (s.heap.modify i f).paths = s.heap.paths := paths_modify hbase
  have hpathne : ∀ j q, i ≠ j → s.heap.proxies[j]? = some q → q.basePath ≠ p.basePath :=
    fun j q hij hq hsame => hij (h.index_eq hp hq hsame.symm)
  refine ⟨h.host, ?_, fun j q hq => ?_, fun path hpath => ?_, fun j key hmem => ?_⟩
  · change (s.heap.modify i f).paths.Nodup
    rw [hpaths]
    exact h.nodup
  · obtain ⟨r, hr, rfl⟩ := getElem?_modify hq
    split_ifs with hij
    · subst hij
      obtain rfl := Option.some.inj (hp.symm.trans hr)
      exact hstands
    · obtain ⟨value', hvalue⟩ := h.stands j r hr
      refine ⟨value', hvalue.frame rfl (hpaths ▸ List.prefix_refl _) (fun key => hother j key hij)
        (hcopy _ (hpathne j r hij hr)) fun _ key _ path hpath => .inl ?_⟩
      change path ∈ (s.heap.modify i f).paths at hpath
      rwa [hpaths] at hpath
  · have hsame : copy path = s.copy path := by
      by_cases hne : path = p.basePath
      · subst hne
        exact (hlazy (hpath i (f p) (getElem?_modify_self hp) (hbase p))).2
      · exact hcopy path hne
    refine hsame.trans (h.untouched path fun j q hq hqpath => ?_)
    by_cases hij : i = j
    · subst hij
      obtain rfl := Option.some.inj (hp.symm.trans hq)
      exact (hlazy (hpath i (f p) (getElem?_modify_self hp) ((hbase p).trans hqpath))).1
    · exact hpath j q ((getElem?_modify_of_ne hij).trans hq) hqpath
  · by_cases hij : i = j
    · subst hij
      obtain ⟨hold, harray', hget', hgone⟩ := hmissing key hmem
      obtain ⟨harray, hget, hproto, -⟩ := h.missing_at hp hold
      refine ⟨f p, getElem?_modify_self hp, harray'.trans harray, hget'.trans hget, hproto, ?_⟩
      rw [hbase]
      exact hgone
    · obtain ⟨q, hq, harray, hget, hproto, hgone⟩ := h.missing j key ((hother j key hij).mp hmem)
      refine ⟨q, (getElem?_modify_of_ne hij).trans hq, harray, hget, hproto, ?_⟩
      exact (congrArg (·.view.get? key) (hcopy _ (hpathne j q hij hq))).trans hgone

/-- A change of one proxy that keeps its path and that keeps what it stands for. -/
theorem Sound.modify (h : Sound realm data s) (hp : s.heap.proxies[i]? = some p)
    (hbase : ∀ p, (f p).basePath = p.basePath)
    (hlazy : (f p).materialized = false → p.materialized = false)
    (hstands : ∃ value, Stands realm { s with heap := s.heap.modify i f } i (f p) value)
    (hmissing : ∀ key, (i, key) ∈ s.missing → (f p).target.isArray = p.target.isArray ∧
      (f p).target.props.get? key = p.target.props.get? key) :
    Sound realm data { s with heap := s.heap.modify i f } := by
  refine h.change hp hbase (fun _ _ => rfl) (fun _ _ _ => Iff.rfl)
    (fun hfalse => ⟨hlazy hfalse, rfl⟩) hstands fun key hmem => ?_
  obtain ⟨harray, hget⟩ := hmissing key hmem
  exact ⟨hmem, harray, hget, (h.missing_at hp hmem).2.2.2⟩

/-- The keys are those of the data, and fetching them changes nothing else. -/
theorem Sound.resolveObjectKeys (h : Sound realm data s) (hp : s.heap.proxies[i]? = some p)
    (hstands : Stands realm s i p (.object fields)) :
    (s.heap.resolveObjectKeys i p).2 = fields.map Prod.fst ∧
      Sound realm data { s with heap := (s.heap.resolveObjectKeys i p).1 } ∧
      (s.heap.resolveObjectKeys i p).1.paths = s.heap.paths ∧
      ∃ q, (s.heap.resolveObjectKeys i p).1.proxies[i]? = some q ∧ q.basePath = p.basePath ∧
        q.proxyMeta = p.proxyMeta ∧ q.materialized = p.materialized := by
  unfold Heap.resolveObjectKeys
  have hfits := hstands.fits
  rcases hfits with hmeta | hmeta
  · rw [hmeta]
    cases hkeys : p.fetchedKeys with
    | some keys =>
      obtain ⟨fields', hvalue, rfl⟩ := hstands.fetchedKeys keys hkeys
      cases hvalue
      exact ⟨rfl, h, rfl, p, hp, rfl, hmeta, rfl⟩
    | none =>
      have htransfer : getValueAtPath s.heap.data p.basePath =
          .objectMetadata (fields.map Prod.fst) := by
        rw [getValueAtPath, hstands.path]
        rfl
      rw [htransfer]
      have hpaths : (s.heap.modify i fun p =>
          { p with fetchedKeys := some (fields.map Prod.fst) }).paths = s.heap.paths :=
        paths_modify fun _ => rfl
      refine ⟨rfl, ?_, hpaths, _, getElem?_modify_self hp, rfl, hmeta, rfl⟩
      refine h.modify hp (fun _ => rfl) (fun hlazy => hlazy) ⟨.object fields, ?_⟩
        fun key _ => ⟨rfl, rfl⟩
      have hframe := @Stands.frame X realm s { s with heap := s.heap.modify i fun p =>
        { p with fetchedKeys := some (fields.map Prod.fst) } } i p _ hstands rfl
        (hpaths ▸ List.prefix_refl _) (fun _ => Iff.rfl) rfl
        fun _ key _ path hpath => Or.inl (hpaths ▸ hpath)
      exact { hframe with
        fetchedKeys := fun keys hkeys => ⟨fields, rfl, (Option.some.inj hkeys).symm⟩ }
  · rw [hmeta]
    exact ⟨rfl, h, rfl, p, hp, rfl, hmeta, rfl⟩

/-- The flag is set, and the target adjusted. -/
def Heap.sealed (heap : Heap X) (i : ℕ) (g : JsObject (Ref X) → JsObject (Ref X)) : Heap X :=
  heap.modify i fun p => { p with target := g p.target, materialized := true }

theorem paths_sealed : (heap.sealed i g).paths = heap.paths :=
  paths_modify fun _ => rfl

/-- A proxy whose properties are all cached shows what the copy has. -/
theorem Filled.shown (h : Filled realm data s i p heap keys) (hq : heap.proxies[i]? = some q)
    (hlazy : q.materialized = false) (hstands : Stands realm { s with heap } i q value)
    (hkeys : ∀ key, (ownValue value key).isSome → q.target.props.get? key ≠ none)
    (harray : (g q.target).isArray = q.target.isArray)
    (hlength : (g q.target).length = arrayLength value)
    (hget : ∀ key, (g q.target).props.get? key = q.target.props.get? key) :
    s.copy q.basePath = Side.shown { s with heap := heap.sealed i g } i
      { q with target := g q.target, materialized := true } := by
  have hcopy := h.sound.copy_eq hq hstands hlazy
  have hname : ∀ key cached, q.target.props.get? key = some cached →
      cached.map (heap.sealed i g).name = cached.map heap.name := fun key cached hcached =>
    (hstands.held key cached hcached).map_name (paths_sealed ▸ List.prefix_refl _)
  change s.copy q.basePath = initialCopy realm value q.basePath at hcopy
  rw [hcopy, initialCopy, Side.shown, Copied.mk.injEq, View.mk.injEq]
  refine ⟨⟨?_, hlength.symm, funext fun key => ?_⟩, ?_⟩
  · rw [harray, hstands.isArray, hstands.fits.isArray]
  · change (ownValue value key).map (copyValue (q.basePath ++ [key])) =
      if (i, key) ∈ s.missing then none else
        ((g q.target).props.get? key).map (JsValue.map (heap.sealed i g).name)
    rw [hget]
    cases hcached : q.target.props.get? key with
    | none =>
      have hnone : ownValue value key = none := by
        by_contra hsome
        exact hkeys key (Option.isSome_iff_ne_none.mpr hsome) hcached
      rw [hnone, Option.map_none, Option.map_none, ite_self]
    | some cached =>
      rw [Option.map_some, hname key cached hcached]
      rcases hstands.cached hlazy key cached hcached with ⟨child, hchild, hvalue⟩ | ⟨hmem, -, hnone⟩
      · -- What the data has was never missing.
        have hnot : (i, key) ∉ s.missing := by
          intro hmem
          have hgone := (h.sound.missing_at hq hmem).2.2.2
          rw [show s.copy q.basePath = _ from hcopy] at hgone
          simp [initialCopy, hchild] at hgone
        rw [if_neg hnot, hchild, Option.map_some]
        exact congrArg some hvalue.symm
      · rw [if_pos hmem, hnone, Option.map_none]
  · rw [hstands.prototype hlazy, hstands.fits.isArray]

/-- A proxy whose properties are all cached is materialized. -/
theorem Filled.seal (h : Filled realm data s i p heap keys)
    (hhost : s.heap.data = data) (hstands : Stands realm s i p value)
    (hkeys : ∀ key, (ownValue value key).isSome → key ∈ keys)
    (harray : ∀ target, (g target).isArray = target.isArray) (hlength : ∀ q, heap.proxies[i]? = some q → Stands realm { s with heap } i q value →
      (g q.target).length = arrayLength value)
    (hget : ∀ q, heap.proxies[i]? = some q → q.materialized = false →
      Stands realm { s with heap } i q value → ∀ key,
        (g q.target).props.get? key = q.target.props.get? key) :
    ∃ q, (heap.sealed i g).proxies[i]? = some q ∧ q.basePath = p.basePath ∧
      q.materialized = true ∧ Sound realm data { s with heap := heap.sealed i g } := by
  obtain ⟨q, hq, hbase, hmeta, hlazy, hcached⟩ := h.proxy
  obtain ⟨value', hstands'⟩ := h.sound.stands i q hq
  obtain rfl := hstands.value_eq hstands' (h.sound.host.trans hhost.symm) hbase
  refine ⟨_, getElem?_modify_self hq, hbase, rfl, ?_⟩
  refine h.sound.modify hq (fun _ => rfl) (fun hfalse => Bool.noConfusion hfalse)
    ⟨value', ?_⟩ fun key _ => ⟨harray _, hget q hq hlazy hstands' key⟩
  have hframe := @Stands.frame X realm { s with heap } { s with heap := heap.sealed i g } i q _
    hstands' rfl (paths_sealed ▸ List.prefix_refl _) (fun _ => Iff.rfl) rfl
    fun _ key _ path hpath => Or.inl (paths_sealed ▸ hpath)
  refine ⟨hframe.path, hframe.fits, ?_, fun hfalse => ?_, hframe.fetchedKeys,
    fun key cached hc => ?_, fun hfalse => Bool.noConfusion hfalse,
    fun hfalse => Bool.noConfusion hfalse, fun hfalse => Bool.noConfusion hfalse, fun _ => ?_⟩
  · exact (harray _).trans hframe.isArray
  · have hfalse' : isArray value' = false := by
      rw [hstands'.fits.isArray, ← hstands'.isArray, ← harray]
      exact hfalse
    refine (hlength q hq hstands').trans ?_
    match value', hfalse' with
    | .object fields, _ => rfl
    | .null, _ | .bool _, _ | .number _, _ | .string _, _ => rfl
  · exact hframe.held key cached ((hget q hq hlazy hstands' key).symm.trans hc)
  · exact h.shown hq hlazy hstands' (fun key hown => hcached key (hkeys key hown)) (harray _)
      (hlength q hq hstands') (hget q hq hlazy hstands')

/-- The indices that are cached are those of the elements, so that resizing drops none. -/
theorem Sound.get?_resize (h : Sound realm data s) (hq : s.heap.proxies[i]? = some q)
    (hlazy : q.materialized = false)
    (hstands : Stands realm s i q (.array items)) (key : String) :
    (q.target.resize items.length).props.get? key = q.target.props.get? key := by
  rw [congrFun JsObject.get?_resize key]
  split
  next hindex =>
    cases hcached : q.target.props.get? key with
    | none => rfl
    | some cached =>
      rcases hstands.cached hlazy key cached hcached with ⟨child, hchild, -⟩ | ⟨hmem, -⟩
      · obtain ⟨idx, rfl, hitem⟩ := ownValue_array.mp hchild
        have hlt := (List.getElem?_eq_some_iff.mp hitem).1
        cases harray : arrayIndex (toString idx) with
        | none =>
          rw [harray, Option.any_none] at hindex
          cases hindex
        | some m =>
          rw [harray, Option.any_some, decide_eq_true_eq] at hindex
          have := arrayIndex_toString harray
          omega
      · have harray := (h.missing_at hq hmem).1
        rw [hstands.isArray, ← hstands.fits.isArray] at harray
        cases harray
  next => rfl

section Materialize

theorem materialize_of_materialized (hp : heap.proxies[i]? = some p)
    (hdone : p.materialized = true) : heap.materialize realm i = heap := by
  simp [Heap.materialize, hp, hdone]

theorem materialize_array (hp : heap.proxies[i]? = some p) (hlazy : p.materialized = false)
    {length : ℕ} (hmeta : p.proxyMeta = .array length) : heap.materialize realm i =
      (heap.materializeElements realm i p.basePath (List.range length)).sealed i
        (·.resize length) := by
  simp [Heap.materialize, hp, hlazy, hmeta, Heap.sealed]

theorem materialize_object (hp : heap.proxies[i]? = some p) (hlazy : p.materialized = false)
    {keys : Option (List String)} (hmeta : p.proxyMeta = .object keys) :
    heap.materialize realm i = ((heap.resolveObjectKeys i p).1.materializeKeys realm i p.basePath
      (heap.resolveObjectKeys i p).2).sealed i id := by
  simp [Heap.materialize, hp, hlazy, hmeta, Heap.sealed]

end Materialize

/-- After the first write everything is in the target. -/
theorem Sound.materialize (h : Sound realm data s) (hp : s.heap.proxies[i]? = some p) :
    (∃ q, (s.heap.materialize realm i).proxies[i]? = some q ∧ q.basePath = p.basePath ∧
      q.materialized = true) ∧ Sound realm data { s with heap := s.heap.materialize realm i } ∧
      s.heap.paths <+: (s.heap.materialize realm i).paths := by
  cases hdone : p.materialized with
  | true =>
    rw [materialize_of_materialized hp hdone]
    exact ⟨⟨p, hp, rfl, hdone⟩, h, List.prefix_refl _⟩
  | false =>
    obtain ⟨value, hstands⟩ := h.stands i p hp
    match value, hstands.fits with
    | .array items, hmeta =>
      rw [materialize_array hp hdone hmeta]
      have hstart : Filled realm data s i p s.heap [] := ⟨h, List.prefix_refl _, p, hp, rfl, rfl,
        hdone, fun key hkey => absurd hkey List.not_mem_nil⟩
      have hfilled := hstart.materializeElements h.host hstands fun idx hidx =>
        List.mem_range.mp hidx
      have hkeys : ∀ key, (ownValue (.array items) key).isSome →
          key ∈ ((List.range items.length).map toString).reverse ++ [] := by
        intro key hown
        obtain ⟨child, hchild⟩ := Option.isSome_iff_exists.mp hown
        obtain ⟨idx, rfl, hitem⟩ := ownValue_array.mp hchild
        have hlt := (List.getElem?_eq_some_iff.mp hitem).1
        simpa using hlt
      obtain ⟨q, hq, hbase, hmaterialized, hsound⟩ := hfilled.seal (g := (·.resize items.length))
        h.host hstands hkeys (fun _ => rfl) (fun _ _ _ => rfl)
        fun q hq hlazy hstands' key => hfilled.sound.get?_resize hq hlazy hstands' key
      refine ⟨⟨q, hq, hbase, hmaterialized⟩, hsound, ?_⟩
      rw [paths_sealed]
      exact hfilled.paths
    | .object fields, _ =>
      obtain ⟨keys, hmeta, -⟩ := hstands.object
      rw [materialize_object hp hdone hmeta]
      obtain ⟨hnames, hsound, hpaths, q, hq, hbase, hqmeta, hqdone⟩ :=
        h.resolveObjectKeys hp hstands
      have hstart : Filled realm data s i p (s.heap.resolveObjectKeys i p).1 [] := by
        refine ⟨hsound, hpaths ▸ List.prefix_refl _, q, hq, hbase, hqmeta, ?_, ?_⟩
        · rw [hqdone, hdone]
        · exact fun key hkey => absurd hkey List.not_mem_nil
      rw [hnames]
      have hfilled := hstart.materializeKeys h.host hstands fun key hkey => hkey
      have hkeys : ∀ key, (ownValue (.object fields) key).isSome →
          key ∈ ((fields.map Prod.fst).map id).reverse ++ [] := by
        intro key hown
        simpa using ownValue_object.mp hown
      obtain ⟨q', hq', hbase', hmaterialized, hsound'⟩ := hfilled.seal (g := id) h.host hstands
        hkeys (fun _ => rfl) (fun q _ hstands' => hstands'.length (hstands'.isArray.trans
          hstands'.fits.isArray.symm)) fun _ _ _ _ _ => rfl
      refine ⟨⟨q', hq', hbase', hmaterialized⟩, hsound', ?_⟩
      rw [paths_sealed]
      exact hfilled.paths

end N8n.ExpressionRuntime.LazyProxy
