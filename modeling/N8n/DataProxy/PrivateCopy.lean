import N8n.DataProxy.Simulation
import N8n.Foundations.OrderedSet

/-!
# An augmented object is a private copy

Every operation keeps the invariant and returns what the same operation on the deep copy returns, so
a program cannot tell the two apart, and the object that was augmented is never changed.

## Main definitions

* `Admissible`: the operations that the traps agree with the copy on
* `Answer.Same`: the same answer, the order of names aside

## Main results

* `Simulates.get`, `set`, `delete`, `has`, `ownKeys`: one lemma for each operation
* `step_same`, `run_same`: one operation of a program, and all of them
* `augmentObject_private`: every admissible program sees the deep copy, and the base stays
-/

namespace N8n.DataProxy

open Augmented.Heap View OrderedMap

open StaticData (Primitive Data Fields)
open Augmented (Ref Proxy)

/-! ## Reading views -/

section Views

variable {ρ : Type} {view : View ρ} {key : String}

/-- What refers to an object is stored. -/
theorem View.get?_of_get {r : ρ} (h : view.get key = .reference r) :
    view.get? key = some (.reference r) := by
  unfold View.get View.own at h
  split_ifs at h
  · cases h
  · cases h
  · cases hget : view.get? key with
    | none => simp [hget] at h
    | some value => rw [← h, hget, Option.getD_some]
  · cases hget : view.get? key with
    | none => simp [hget, JsValue.undefined] at h
    | some value => rw [← h, hget, Option.getD_some]

/-- The view with another property of that name, or without one. -/
def View.put (view : View ρ) (key : String) (value : Option (JsValue ρ)) : View ρ :=
  ⟨view.isArray, view.length, Function.update view.get? key value⟩

theorem View.ext_get? {view view' : View ρ} (harray : view.isArray = view'.isArray)
    (hlength : view.length = view'.length) (h : ∀ key, view.get? key = view'.get? key) :
    view = view' := by
  cases view
  cases view'
  rw [View.mk.injEq]
  exact ⟨harray, hlength, funext h⟩

@[simp] theorem View.get?_put {value : Option (JsValue ρ)} {key' : String} :
    (view.put key value).get? key' = if key' = key then value else view.get? key' :=
  Function.update_apply _ _ _ _

/-- Setting a property that is there changes nothing else. -/
theorem JsObject.view_set_stored {object : JsObject ρ} {value : JsValue ρ}
    (h : object.view.get? key ≠ none) :
    ((object.set key value).getD object).view = object.view.put key (some value) := by
  have hlength : ¬ (object.isArray ∧ key = "length") := by
    rintro ⟨harray, rfl⟩
    exact h (object.length_fresh harray)
  rw [JsObject.set, dif_neg hlength, Option.getD_some]
  refine ext_get? rfl ?_ fun key' => ?_
  · change (if object.isArray then _ else object.length) = object.length
    split_ifs with harray
    · cases hindex : arrayIndex key with
      | none => rfl
      | some index => exact Nat.max_eq_left (object.index_lt harray key index hindex h)
    · rfl
  · rw [get?_put]
    exact get?_set

theorem JsObject.isArray_set_getD {object : JsObject ρ} {value : JsValue ρ} :
    ((object.set key value).getD object).isArray = object.isArray := by
  unfold JsObject.set
  split_ifs
  · cases lengthOf value <;> rfl
  · rfl

theorem allowed_get {s : Augmented.Heap} {t : Copy.Heap} {part : Bool} {view : View Ref}
    (h : ∀ value, view.get? key = some value → Allowed s t part value) :
    Allowed s t part (view.get key) := by
  unfold View.get View.own
  split_ifs
  · trivial
  · trivial
  · cases hget : view.get? key with
    | none => trivial
    | some value => exact h value hget
  · cases hget : view.get? key with
    | none => trivial
    | some value => exact h value hget

end Views

section Proxies

variable {s : Augmented.Heap} {t : Copy.Heap} {i : ℕ} {p : Proxy}

theorem Simulates.proxyOf (h : Simulates s t) (hi : s.proxies[i]? = some p) : ProxyOf s t p :=
  h.proxies p (List.mem_of_getElem? hi)

theorem Simulates.view_proxy (h : Simulates s t) (hi : s.proxies[i]? = some p) :
    s.view p.target = p.view (objectAt s.objects p.target) :=
  view_of_proxy h.targets (List.mem_of_getElem? hi)

theorem Simulates.view_copy (h : Simulates s t) (hi : s.proxies[i]? = some p) :
    (objectAt t.objects p.target).view =
      (p.view (objectAt s.objects p.target)).map s.address := by
  rw [h.views _ (h.proxyOf hi).lt, h.view_proxy hi]

theorem ProxyOf.isArray_view (h : ProxyOf s t p) :
    (p.view (objectAt s.objects p.target)).isArray = p.isArray := by
  match p, h with
  | .object target newData deleted, h => exact h.isArray.symm
  | .array target none, h => exact h.isArray.symm
  | .array target (some data), h => exact (h.allowed data rfl).1

/-- What an array shows are parts of the copy. -/
theorem Simulates.allowed_data (h : Simulates s t) {target : ℕ} {newData : Option (JsObject Ref)}
    (hi : s.proxies[i]? = some (.array target newData)) {key : String} {value : Augmented.Value}
    (hvalue : (newData.getD (objectAt s.objects target)).props.get? key = some value) :
    Allowed s t true value := by
  have hproxy := h.proxyOf hi
  cases newData with
  | none =>
    rw [← hproxy.copied]
    exact h.objects target hproxy.lt key value hvalue
  | some data => exact (hproxy.allowed data rfl).2 key value hvalue

theorem Allowed.exists_proxy (h : Allowed s t false (.reference (.proxy i))) :
    ∃ p, s.proxies[i]? = some p ∧ s.address (.proxy i) = p.target :=
  ⟨_, List.getElem?_eq_getElem h, address_proxy (List.getElem?_eq_getElem h)⟩

/-- An object without a proxy shows as it is. -/
theorem Simulates.view_raw (h : Simulates s t) {a : ℕ} (ha : t.copied a = false) :
    s.view a = (objectAt s.objects a).view := by
  refine view_of_unproxied fun p hp => ?_
  rintro rfl
  rw [(h.proxies p hp).copied] at ha
  cases ha

/-- The object behind a proxy that was just made. -/
theorem address_changed {p' : Proxy} {b : ℕ} (hi : s.proxies[i]? = some p)
    (htarget : p'.target = p.target) :
    (s.changed [b] i p').address (.proxy s.proxies.length) = b := by
  have htargets := @targets_changed s i p p' [b] hi htarget
  have hmap := congrArg (·[s.proxies.length]?) htargets
  simp only [List.getElem?_map] at hmap
  rw [address, hmap, List.getElem?_append_right (by simp)]
  simp

end Proxies

/-! ## Reading a property -/

section Get

variable {s : Augmented.Heap} {t : Copy.Heap} {i : ℕ} {p p' : Proxy} {key : String} {b : ℕ}
  {v : Augmented.Value}

structure SameRead (s : Augmented.Heap) (t : Copy.Heap) (result : Augmented.Heap × Augmented.Value)
    (value : Copy.Value) : Prop where
  simulates : Simulates result.1 t
  later : Later s t result.1 t
  allowed : Allowed result.1 t false result.2
  value : value = result.2.map result.1.address

/-- A part of the copy that is read for the first time gets a proxy. -/
theorem Simulates.get_part (h : Simulates s t) (hi : s.proxies[i]? = some p)
    (htarget : p'.target = p.target) (hkind : p'.isArray = p.isArray)
    (hget : (p.view (objectAt s.objects p.target)).get? key = some (.reference (.plain b)))
    (hb : t.copied b)
    (hview : p'.view (objectAt s.objects p.target) = (p.view (objectAt s.objects p.target)).put key
      (some (.reference (.proxy s.proxies.length))))
    (hallowed : AllowedIn (s.changed [b] i p') t p') :
    SameRead s t (s.changed [b] i p', .reference (.proxy s.proxies.length)) (.reference b) := by
  have hlt : p.target < s.objects.length := (h.proxyOf hi).lt
  have hunder : Under s t p.target key b := ⟨hlt, by rw [h.view_proxy hi, hget], hb⟩
  have hextra : Unproxied s t [b] := by
    refine ⟨List.nodup_singleton b, ?_, ?_, ?_⟩
    · refine List.forall_mem_singleton.mpr ?_
      obtain ⟨part, hpart⟩ := h.allowed_view hlt (by rw [h.view_proxy hi, hget])
      exact hpart.1
    · exact List.forall_mem_singleton.mpr hb
    · exact List.forall_mem_singleton.mpr (h.unproxied _ _ _ hunder)
  have hlater : Later s t (s.changed [b] i p') t := later_changed hi htarget rfl
  have haddress := @address_changed s i p p' b hi htarget
  refine ⟨?_, hlater, ?_, by simp [JsValue.map, haddress]⟩
  · refine h.change hi htarget hextra hkind hallowed rfl rfl (fun _ _ => rfl) ?_ ?_ ?_
    · -- the new proxy stands for the object that was there
      rw [h.view_copy hi, hview]
      refine ext_get? rfl rfl fun key' => ?_
      simp only [map, get?_put]
      split_ifs with hkey
      · subst hkey
        rw [hget, Option.map_some, Option.map_some, JsValue.map, JsValue.map, haddress]
        rfl
      · refine Option.map_congr fun v hv => ?_
        obtain ⟨part, hpart⟩ := h.allowed_view hlt (by rw [h.view_proxy hi, hv])
        exact (hlater.map_address hpart).symm
    · intro key' c hc hcopied
      rw [hview, get?_put] at hc
      split_ifs at hc with hne
      · cases hc
      have hunder' : Under s t p.target key' c := ⟨hlt, by rw [h.view_proxy hi, hc], hcopied⟩
      refine ⟨hunder', fun hmem => hne ?_⟩
      obtain rfl := List.mem_singleton.mp hmem
      exact (h.once _ _ _ _ _ hunder' hunder).2
    · intro a key' c ha hunder' hmem
      obtain rfl := List.mem_singleton.mp hmem
      exact ha (h.once _ _ _ _ _ hunder' hunder).1
  · change s.proxies.length < (s.changed [b] i p').proxies.length
    simp [changed]

theorem SameRead.same (h : Simulates s t) (hv : Allowed s t false v) {value : Copy.Value}
    (hvalue : value = v.map s.address) : SameRead s t (s, v) value :=
  ⟨h, .refl, hv, hvalue⟩

/-- What is not augmented may be held. -/
theorem Allowed.of_ne {s : Augmented.Heap} {t t' : Copy.Heap} {part part' : Bool}
    (h : Allowed s t part v) (hv : ∀ b, v ≠ .reference (.plain b)) : Allowed s t' part' v := by
  match v, h with
  | .primitive _, _ => trivial
  | .builtin _ _, _ => trivial
  | .reference (.plain b), _ => exact absurd rfl (hv b)
  | .reference (.proxy _), h => exact h

theorem augment_of_ne (hv : ∀ b, v ≠ .reference (.plain b)) : s.augment v = (s, v) := by
  match v with
  | .primitive _ => rfl
  | .builtin _ _ => rfl
  | .reference (.plain b) => exact absurd rfl (hv b)
  | .reference (.proxy _) => rfl

theorem allowed_changed {p' : Proxy} {part : Bool} : Allowed (s.changed [b] i p') t part
    (.reference (.proxy s.proxies.length)) := by
  change s.proxies.length < (s.changed [b] i p').proxies.length
  simp [changed]

/-- The end of both traps: what is augmented is stored. -/
theorem Simulates.get_augment (h : Simulates s t) (hi : s.proxies[i]? = some p)
    (keep : Augmented.Value → Proxy)
    (hallowed : Allowed s t true ((p.view (objectAt s.objects p.target)).get key))
    (hkeep : ∀ b, (p.view (objectAt s.objects p.target)).get? key =
        some (.reference (.plain b)) → t.copied b →
      (keep (.reference (.proxy s.proxies.length))).target = p.target ∧
      (keep (.reference (.proxy s.proxies.length))).isArray = p.isArray ∧
      (keep (.reference (.proxy s.proxies.length))).view (objectAt s.objects p.target) =
        (p.view (objectAt s.objects p.target)).put key
          (some (.reference (.proxy s.proxies.length))) ∧
      AllowedIn (s.changed [b] i (keep (.reference (.proxy s.proxies.length)))) t
        (keep (.reference (.proxy s.proxies.length)))) :
    SameRead s t
      (let value := (p.view (objectAt s.objects p.target)).get key
      let augmented := s.augment value
      if augmented.2 = value then (s, value)
      else (augmented.1.setProxy i (keep augmented.2), augmented.2))
      (((p.view (objectAt s.objects p.target)).get key).map s.address) := by
  by_cases hplain : ∃ b, (p.view (objectAt s.objects p.target)).get key = .reference (.plain b)
  · obtain ⟨b, hb⟩ := hplain
    have hget := get?_of_get hb
    rw [hb] at hallowed
    obtain ⟨htarget, hkind, hview, hallowedIn⟩ := hkeep b hget hallowed.2
    have hne : ¬ (s.augment (.reference (.plain b))).2 = .reference (.plain b) := by
      simp [augment]
    simp only [hb]
    rw [if_neg hne]
    exact h.get_part hi htarget hkind hget hallowed.2 hview hallowedIn
  · push Not at hplain
    simp only [augment_of_ne hplain, if_true]
    exact SameRead.same h (hallowed.of_ne hplain) rfl

theorem View.own_object {ρ : Type} {view : View ρ} (h : view.isArray = false) :
    view.own key = view.get? key := by
  rw [View.own, if_neg]
  rw [h]
  exact fun hne => Bool.false_ne_true hne.1

/-- Nothing is inherited where there is a constructor. -/
theorem View.get_constructor {ρ : Type} {view : View ρ} (h : view.own "constructor" = none) :
    view.get "constructor" = .builtin view.isArray "constructor" := by
  have hname : ∀ isArray, "constructor" ∈ inheritedNames isArray := by decide
  rw [View.get, h, Option.getD_none, if_pos (hname _)]

theorem Simulates.get_copy (h : Simulates s t) (hi : s.proxies[i]? = some p) :
    (t.get p.target key).2 = ((p.view (objectAt s.objects p.target)).get key).map s.address := by
  rw [Copy.Heap.get, h.view_copy hi, map_get]

/-- Where the copy has no constructor of its own, it reads the inherited one. -/
theorem Simulates.get_constructor (h : Simulates s t) (hi : s.proxies[i]? = some p)
    (hkey : (objectAt t.objects p.target).view.own "constructor" = none) :
    (p.view (objectAt s.objects p.target)).get "constructor" =
      .builtin p.isArray "constructor" := by
  rw [h.view_copy hi, View.map_own, Option.map_eq_none_iff] at hkey
  rw [View.get_constructor hkey, (h.proxyOf hi).isArray_view]

theorem Simulates.get_object (h : Simulates s t) {target : ℕ}
    {newData : OrderedMap String Augmented.Value} {deletedProperties : List String}
    (hi : s.proxies[i]? = some (.object target newData deletedProperties))
    (hkey : key = "constructor" → (objectAt t.objects target).view.own key = none) :
    SameRead s t (s.get (.proxy i) key) (t.get target key).2 := by
  have hproxy := h.proxyOf hi
  have harray : (objectAt s.objects target).view.isArray = false := hproxy.isArray.symm
  have hcopy := @Simulates.get_copy s t i _ key h hi
  have hget := h.get_constructor hi
  dsimp only [Proxy.target] at hcopy hget
  set view := (Proxy.object target newData deletedProperties).view (objectAt s.objects target)
    with hshown
  have hinherited : view.isArray = false := harray
  have hget? : ∀ key, view.get? key = if key ∈ deletedProperties then none
      else (newData.get? key).or ((objectAt s.objects target).props.get? key) := fun _ => rfl
  rw [hcopy]
  simp only [Augmented.Heap.get, hi]
  by_cases hconstructor : key = "constructor"
  · subst hconstructor
    rw [if_pos rfl, hget (hkey rfl)]
    exact ⟨h, .refl, True.intro, rfl⟩
  rw [if_neg hconstructor]
  by_cases hdeleted : key ∈ deletedProperties
  · have hname : key ∉ inheritedNames false := hproxy.allowed.1 key hdeleted
    have hundefined : view.get key = .undefined := by
      rw [View.get, View.own_object hinherited, hget?, if_pos hdeleted, hinherited, if_neg hname]
      rfl
    rw [if_pos hdeleted, hundefined]
    exact ⟨h, .refl, True.intro, rfl⟩
  rw [if_neg hdeleted]
  have hlive : view.get? key =
      (newData.get? key).or ((objectAt s.objects target).props.get? key) := by
    rw [hget?, if_neg hdeleted]
  cases hnew : newData.get? key with
  | some value =>
    refine SameRead.same h (hproxy.allowed.2 key value hnew) ?_
    rw [View.get, View.own_object hinherited, hlive, hnew, Option.some_or, Option.getD_some]
  | none =>
    rw [hnew, Option.none_or] at hlive
    -- nothing is kept for this property
    have hbase : (objectAt s.objects target).view.get key = view.get key := by
      rw [View.get, View.own_object harray, View.get, View.own_object hinherited, hlive]
      rfl
    simp only [hbase]
    refine h.get_augment hi (fun value => .object target (newData.set key value)
      deletedProperties) ?_ fun b hb hcopied => ⟨rfl, rfl, ?_, ?_⟩
    · refine allowed_get fun value hvalue => ?_
      rw [← hproxy.copied]
      exact h.objects target hproxy.lt key value (hlive.symm.trans hvalue)
    · refine ext_get? rfl rfl fun key' => ?_
      rw [get?_put]
      simp only [Proxy.view, get?_set]
      split_ifs with hdeleted' hkey' hkey'
      · exact absurd (hkey' ▸ hdeleted') hdeleted
      · rfl
      · rfl
      · rfl
    · refine ⟨hproxy.allowed.1, fun key' value hget' => ?_⟩
      rw [get?_set] at hget'
      split_ifs at hget'
      · cases hget'
        exact allowed_changed
      · refine Later.allowed ?_ (hproxy.allowed.2 key' value hget')
        exact later_changed hi rfl rfl

theorem Simulates.get_array (h : Simulates s t) {target : ℕ} {newData : Option (JsObject Ref)}
    (hi : s.proxies[i]? = some (.array target newData))
    (hkey : key = "constructor" → (objectAt t.objects target).view.own key = none) :
    SameRead s t (s.get (.proxy i) key) (t.get target key).2 := by
  have hproxy := h.proxyOf hi
  have harray : (newData.getD (objectAt s.objects target)).isArray = true := hproxy.isArray_view
  rw [show (t.get target key).2 = _ from h.get_copy hi]
  simp only [Augmented.Heap.get, hi]
  by_cases hconstructor : key = "constructor"
  · subst hconstructor
    rw [if_pos rfl, h.get_constructor hi (hkey rfl)]
    exact ⟨h, .refl, True.intro, rfl⟩
  rw [if_neg hconstructor]
  refine h.get_augment hi (fun value => .array target (some
    (((newData.getD (objectAt s.objects target)).set key value).getD
      (newData.getD (objectAt s.objects target)))))
    (allowed_get fun value hvalue => h.allowed_data hi hvalue)
    fun b hb hcopied => ⟨rfl, rfl, ?_, ?_⟩
  · exact JsObject.view_set_stored (fun hnone => by cases hnone.symm.trans hb)
  · rintro data ⟨⟩
    refine ⟨?_, fun key' value hget' => ?_⟩
    · rw [JsObject.isArray_set_getD, harray]
    · rcases get?_set_getD hget' with ⟨-, rfl⟩ | hget'
      · exact allowed_changed
      · refine Later.allowed ?_ (h.allowed_data hi hget')
        exact later_changed hi rfl rfl

/-- **Reading.** -/
theorem Simulates.get (h : Simulates s t) {r : Ref} (hr : Allowed s t false (.reference r))
    (hkey : t.copied (s.address r) → key = "constructor" →
      (objectAt t.objects (s.address r)).view.own key = none) :
    SameRead s t (s.get r key) (t.get (s.address r) key).2 := by
  match r, hr with
  | .plain a, ⟨ha, hraw⟩ =>
    have hview := h.views a ha
    rw [h.view_raw hraw] at hview
    refine SameRead.same h (allowed_get fun value hvalue => ?_) ?_
    · rw [← hraw]
      exact h.objects a ha key value hvalue
    · rw [← map_get, ← hview]
      rfl
  | .proxy i, hr =>
    obtain ⟨p, hi, haddress⟩ := hr.exists_proxy
    have hcopied := (h.proxyOf hi).copied
    rw [haddress] at hkey ⊢
    replace hkey := hkey hcopied
    cases p with
    | object target newData deletedProperties => exact h.get_object hi hkey
    | array target newData => exact h.get_array hi hkey

end Get

/-! ## Changing a property -/

section Set

variable {s : Augmented.Heap} {t : Copy.Heap} {i : ℕ} {p p' : Proxy} {key : String} {extra : List ℕ}
  {v : Augmented.Value} {ρ : Type}

structure SameDone (s : Augmented.Heap) (t : Copy.Heap) (result : Augmented.Heap × Bool)
    (result' : Copy.Heap × Bool) : Prop where
  simulates : Simulates result.1 result'.1
  later : Later s t result.1 result'.1
  success : result.2 = result'.2

/-- A change through a proxy, with proxies for new objects. -/
theorem Simulates.overwrite (h : Simulates s t) (hi : s.proxies[i]? = some p)
    (htarget : p'.target = p.target) (hkind : p'.isArray = p.isArray)
    (hextra : Unproxied s t extra) (hfree : ∀ b ∈ extra, ∀ a key, ¬ Under s t a key b)
    (hallowed : AllowedIn (s.changed extra i p') t p') {o : JsObject ℕ}
    (hview : o.view = (p'.view (objectAt s.objects p.target)).map (s.changed extra i p').address)
    (hslots : ∀ key b, (p'.view (objectAt s.objects p.target)).get? key =
        some (.reference (.plain b)) → t.copied b →
      (p.view (objectAt s.objects p.target)).get? key = some (.reference (.plain b))) :
    Simulates (s.changed extra i p') (t.setObject p.target o) := by
  have hlt := (h.proxyOf hi).lt
  have hat : ∀ a, objectAt (t.setObject p.target o).objects a =
      if a = p.target then o else objectAt t.objects a := fun a => objectAt_set (h.length ▸ hlt)
  refine h.change hi htarget hextra hkind ?_ rfl List.length_set ?_ ?_ ?_ ?_
  · refine Later.allowedIn ?_ hallowed
    exact ⟨le_rfl, le_rfl, fun _ _ => rfl, fun _ _ => rfl, fun _ _ _ => rfl⟩
  · intro a ha
    rw [hat, if_neg ha]
  · rw [hat, if_pos rfl, hview]
  · intro key b hb hcopied
    have hunder : Under s t p.target key b :=
      ⟨hlt, by rw [h.view_proxy hi, hslots key b hb hcopied], hcopied⟩
    exact ⟨hunder, fun hmem => hfree b hmem _ _ hunder⟩
  · exact fun a key b _ hunder hmem => hfree b hmem a key hunder

theorem Copy.Heap.setObject_self {a : ℕ} : t.setObject a (objectAt t.objects a) = t := by
  rw [Copy.Heap.setObject, objectAt]
  by_cases ha : a < t.objects.length
  · rw [List.getElem?_eq_getElem ha, Option.getD_some, List.set_getElem_self]
  · rw [List.set_eq_of_length_le (not_lt.mp ha)]

theorem Augmented.Heap.setProxy_eq_changed : s.setProxy i p' = s.changed [] i p' := by
  rw [setProxy, changed, List.map_nil, List.append_nil]

/-- What is set on an array is augmented if it is new. -/
theorem Root.augment (hv : Root s t true v) : ∃ extra v',
    s.augment v = (⟨s.objects, s.proxies ++ extra.map (Proxy.fresh s.objects)⟩, v') ∧
    Unproxied s t extra ∧ (∀ b ∈ extra, ∀ a key, ¬ Under s t a key b) ∧
    (∀ b, v' ≠ .reference (.plain b)) ∧
    ∀ i p p' t', s.proxies[i]? = some p → p'.target = p.target →
      v'.map (s.changed extra i p').address = v.map s.address ∧
      Allowed (s.changed extra i p') t' true v' := by
  by_cases hplain : ∃ b, v = .reference (.plain b)
  · obtain ⟨b, rfl⟩ := hplain
    have hb := hv.allowed.2
    refine ⟨[b], .reference (.proxy s.proxies.length), rfl, hv.unproxied b rfl hb, ?_, by simp, ?_⟩
    · exact List.forall_mem_singleton.mpr (hv.free b rfl hb)
    · intro i p p' t' hi htarget
      refine ⟨?_, allowed_changed⟩
      rw [JsValue.map, address_changed hi htarget]
      rfl
  · push Not at hplain
    refine ⟨[], v, ?_, .nil, by simp, hplain, ?_⟩
    · rw [augment_of_ne hplain, List.map_nil, List.append_nil]
    · intro i p p' t' hi htarget
      have hlater : Later s t (s.changed [] i p') t := later_changed hi htarget rfl
      exact ⟨hlater.map_address hv.allowed, (hlater.allowed hv.allowed).of_ne hplain⟩

theorem View.map_put {ρ τ : Type} {f : ρ → τ} {view : View ρ} {value : Option (JsValue ρ)} :
    (view.put key value).map f = (view.map f).put key (value.map (JsValue.map f)) := by
  refine ext_get? rfl rfl fun key' => ?_
  simp only [map, get?_put]
  split_ifs <;> rfl

theorem View.set_object {view : View ρ} (h : view.isArray = false) {value : JsValue ρ} :
    view.set key value = some (view.put key (some value)) := by
  rw [set, if_neg (by rw [h]; exact Bool.false_ne_true)]
  rfl

theorem View.delete_object {view : View ρ} (h : view.isArray = false) :
    view.delete key = (view.put key none, true) := by
  rw [delete, if_neg fun hlength => Bool.false_ne_true (h.symm.trans hlength.1)]
  rfl

section Object

variable {target : ℕ} {newData : OrderedMap String Augmented.Value}
  {deletedProperties : List String}

section Simulates

variable (h : Simulates s t) (hi : s.proxies[i]? = some (.object target newData deletedProperties))
include h hi

/-- A change of an overlay is a change of the object. -/
theorem Simulates.overwrite_object {newData' : OrderedMap String Augmented.Value}
    {deletedProperties' : List String} {value : Option Augmented.Value}
    (hvalue : ∀ v ∈ value, Allowed s t false v)
    (hallowed : AllowedIn s t (.object target newData' deletedProperties'))
    (hput : (Proxy.object target newData' deletedProperties').view (objectAt s.objects target) =
      ((Proxy.object target newData deletedProperties).view
        (objectAt s.objects target)).put key value)
    {o : JsObject ℕ}
    (ho : o.view = (objectAt t.objects target).view.put key (value.map (JsValue.map s.address))) :
    Simulates (s.setProxy i (.object target newData' deletedProperties'))
        (t.setObject target o) ∧
      Later s t (s.setProxy i (.object target newData' deletedProperties'))
        (t.setObject target o) := by
  have hlater : Later s t (s.changed [] i (.object target newData' deletedProperties')) t :=
    later_changed hi rfl rfl
  have hmap := h.map_view_later hlater (h.proxyOf hi).lt
  rw [h.view_proxy hi] at hmap
  rw [Augmented.Heap.setProxy_eq_changed]
  refine ⟨?_, later_changed hi rfl rfl⟩
  refine @Simulates.overwrite s t i _ (.object target newData' deletedProperties') [] h hi rfl rfl
    .nil (by simp) (hlater.allowedIn hallowed) o ?_ ?_
  · have hview := h.view_copy hi
    rw [← hmap] at hview
    rw [ho]
    refine Eq.trans ?_ (congrArg (map _) hput).symm
    rw [map_put]
    refine congrArg₂ (put · key ·) hview (Option.map_congr fun v hv => ?_)
    exact (hlater.map_address (hvalue v hv)).symm
  · intro key' b hb hcopied
    have hput' := congrFun (congrArg get? hput) key'
    rw [get?_put] at hput'
    split_ifs at hput' with hkey'
    · have hraw := (hvalue _ (hput'.symm.trans hb)).2
      rw [hraw] at hcopied
      cases hcopied
    · exact hput'.symm.trans hb

/-- What is kept for a proxy after a deletion. -/
theorem Simulates.delete_overlay (hkey : key ∉ inheritedNames false) {names : List String}
    (hnames : names = if ((objectAt s.objects target).view.own key).isSome
      then key :: deletedProperties else deletedProperties)
    {o : JsObject ℕ} (ho : o.view = (objectAt t.objects target).view.put key none) :
    Simulates (s.setProxy i (.object target (newData.delete key) names)) (t.setObject target o) ∧
      Later s t (s.setProxy i (.object target (newData.delete key) names))
        (t.setObject target o) := by
  have hproxy := h.proxyOf hi
  have harray : (objectAt s.objects target).view.isArray = false := hproxy.isArray.symm
  rw [View.own_object harray] at hnames
  refine @Simulates.overwrite_object s t i key target newData deletedProperties h hi _ _ none
    (by simp) ⟨?_, fun key' value hget => ?_⟩ ?_ o ho
  · intro key' hmem
    rw [hnames] at hmem
    split_ifs at hmem
    · rcases List.mem_cons.mp hmem with rfl | hmem
      · exact hkey
      · exact hproxy.allowed.1 key' hmem
    · exact hproxy.allowed.1 key' hmem
  · rw [get?_delete] at hget
    split_ifs at hget
    exact hproxy.allowed.2 key' value hget
  · refine ext_get? rfl rfl fun key' => ?_
    rw [get?_put]
    simp only [Proxy.view, get?_delete, hnames]
    by_cases hkey' : key' = key
    · subst hkey'
      cases hbase : (objectAt s.objects target).props.get? key' with
      | none => simp
      | some value =>
        have hsome : ((objectAt s.objects target).view.get? key').isSome := by
          rw [show (objectAt s.objects target).view.get? key' = _ from hbase]
          rfl
        simp [hsome]
    · rw [if_neg hkey', if_neg hkey']
      have hmem : key' ∈ (if ((objectAt s.objects target).view.get? key).isSome
          then key :: deletedProperties else deletedProperties) ↔ key' ∈ deletedProperties := by
        split_ifs
        · simp [hkey']
        · rfl
      simp only [hmem]

/-- An object of the copy with another property. -/
theorem Simulates.set_object (hv : Allowed s t false v)
    (hkey : v = .undefined → key ∉ inheritedNames false) :
    SameDone s t (s.set (.proxy i) key v) (t.set target key (v.map s.address)) := by
  have hproxy := h.proxyOf hi
  have harray : (objectAt s.objects target).view.isArray = false := hproxy.isArray.symm
  have hview := h.view_copy hi
  have harray' : (objectAt t.objects target).view.isArray = false :=
    (congrArg isArray hview).trans harray
  have harray'' : (objectAt t.objects target).isArray = false := harray'
  by_cases hundefined : v = .undefined
  · subst hundefined
    have hresult : s.set (.proxy i) key .undefined = (s.setProxy i (.object target
        (newData.delete key) (if (objectAt s.objects target).view.has key then
          key :: deletedProperties else deletedProperties)), true) := by
      simp only [Augmented.Heap.set, hi, if_true]
    have hresult' : t.set target key .undefined =
        (t.setObject target ((objectAt t.objects target).delete key).1, true) := by
      rw [Copy.Heap.set, if_pos ⟨hproxy.copied, by simp [harray''], rfl⟩]
    have hhas : (objectAt s.objects target).view.has key =
        ((objectAt s.objects target).view.own key).isSome := by
      rw [View.has, harray, decide_eq_false (hkey rfl), Bool.or_false]
    have hdelete : ((objectAt t.objects target).delete key).1.view =
        (objectAt t.objects target).view.put key none := by
      have hviews := congrArg Prod.fst (@JsObject.view_delete _ (objectAt t.objects target) key)
      rw [delete_object harray'] at hviews
      exact hviews
    rw [hhas] at hresult
    obtain ⟨hsim, hlater⟩ := h.delete_overlay hi (hkey rfl) rfl hdelete
    rw [JsValue.map_undefined, hresult, hresult']
    exact ⟨hsim, hlater, rfl⟩
  · have hresult : s.set (.proxy i) key v = (s.setProxy i (.object target (newData.set key v)
        (deletedProperties.filter (· ≠ key))), true) := by
      simp only [Augmented.Heap.set, hi]
      rw [if_neg hundefined]
    have hset := @JsObject.view_set _ (objectAt t.objects target) key (v.map s.address)
    rw [View.set_object harray', Option.map_eq_some_iff] at hset
    obtain ⟨o, ho, hput⟩ := hset
    have hresult' : t.set target key (v.map s.address) = (t.setObject target o, true) := by
      rw [Copy.Heap.set, if_neg fun hne => hundefined (JsValue.map_eq_undefined.mp hne.2.2), ho]
    have hkept : AllowedIn s t (.object target (newData.set key v)
        (deletedProperties.filter (· ≠ key))) := by
      refine ⟨fun key' hmem => ?_, fun key' value hget => ?_⟩
      · exact hproxy.allowed.1 key' (List.mem_filter.mp hmem).1
      · rw [get?_set] at hget
        split_ifs at hget
        · exact (Option.some.inj hget) ▸ hv
        · exact hproxy.allowed.2 key' value hget
    have hshown : (Proxy.object target (newData.set key v)
        (deletedProperties.filter (· ≠ key))).view (objectAt s.objects target) =
          ((Proxy.object target newData deletedProperties).view
            (objectAt s.objects target)).put key (some v) := by
      refine ext_get? rfl rfl fun key' => ?_
      rw [get?_put]
      simp only [Proxy.view, get?_set]
      by_cases hkey' : key' = key
      · simp [hkey']
      · simp [hkey']
    obtain ⟨hsim, hlater⟩ := h.overwrite_object hi
      (fun _ hmem => (Option.mem_some.mp hmem) ▸ hv) hkept hshown hput
    rw [hresult, hresult']
    exact ⟨hsim, hlater, rfl⟩

end Simulates

end Object

section Array

variable {target : ℕ} {newData : Option (JsObject Ref)}

/-- What is behind the references does not depend on what is kept. -/
theorem address_changed_congr {p'' : Proxy} (hi : s.proxies[i]? = some p)
    (htarget : p'.target = p.target) (htarget' : p''.target = p.target) :
    (s.changed extra i p').address = (s.changed extra i p'').address := by
  have htargets : (s.changed extra i p').proxies.map Proxy.target =
      (s.changed extra i p'').proxies.map Proxy.target := by
    rw [targets_changed hi htarget, targets_changed hi htarget']
  funext r
  cases r with
  | plain a => rfl
  | proxy j => rw [address, address, ← List.getElem?_map,
      ← List.getElem?_map, htargets]

/-- A change of a copied array. -/
theorem Simulates.overwrite_array (h : Simulates s t)
    (hi : s.proxies[i]? = some (.array target newData)) (hextra : Unproxied s t extra)
    (hfree : ∀ b ∈ extra, ∀ a key, ¬ Under s t a key b) {data : JsObject Ref}
    (harray : data.isArray)
    (hallowed : ∀ key value, data.props.get? key = some value →
      Allowed (s.changed extra i (.array target (some data))) t true value)
    {o : JsObject ℕ}
    (hview : o.view = data.view.map (s.changed extra i (.array target (some data))).address)
    (hslots : ∀ key b, data.props.get? key = some (.reference (.plain b)) →
      (newData.getD (objectAt s.objects target)).props.get? key =
        some (.reference (.plain b))) :
    Simulates (s.changed extra i (.array target (some data))) (t.setObject target o) ∧
      Later s t (s.changed extra i (.array target (some data))) (t.setObject target o) := by
  refine ⟨?_, later_changed hi rfl rfl⟩
  refine @Simulates.overwrite s t i _ (.array target (some data)) extra h hi rfl rfl hextra hfree
    ?_ o hview fun key b hb _ => hslots key b hb
  rintro data' ⟨⟩
  exact ⟨harray, hallowed⟩

/-- An array of the copy with another element. -/
theorem Simulates.set_array (h : Simulates s t)
    (hi : s.proxies[i]? = some (.array target newData)) (hv : Root s t true v) :
    SameDone s t (s.set (.proxy i) key v) (t.set target key (v.map s.address)) := by
  have hproxy := h.proxyOf hi
  set data := newData.getD (objectAt s.objects target) with hdata
  have harray : data.isArray = true := hproxy.isArray_view
  have hview : (objectAt t.objects target).view = data.view.map s.address := h.view_copy hi
  have harray' : (objectAt t.objects target).isArray = true :=
    (congrArg isArray hview).trans harray
  obtain ⟨extra, v', haugment, hextra, hfree, hne, hafter⟩ := hv.augment
  obtain ⟨hvalue, hallowed⟩ := hafter i _ (.array target (some data)) t hi rfl
  have hlater : ∀ data', Later s t (s.changed extra i (.array target (some data'))) t :=
    fun data' => later_changed hi rfl rfl
  have hmap := h.map_view_later (hlater data) hproxy.lt
  rw [h.view_proxy hi] at hmap
  set address' := (s.changed extra i (.array target (some data))).address with haddress
  have haddress' : ∀ data', (s.changed extra i (.array target (some data'))).address = address' :=
    fun data' => address_changed_congr hi rfl rfl
  have hsame : ((objectAt t.objects target).set key (v.map s.address)).map JsObject.view =
      ((data.set key v').map JsObject.view).map (map address') := by
    have hview' : (objectAt t.objects target).view = data.view.map address' := hview.trans hmap.symm
    rw [JsObject.view_set, JsObject.view_set, hview', ← hvalue, map_set]
  have hset' : t.set target key (v.map s.address) =
      ((objectAt t.objects target).set key (v.map s.address)).elim (t, false) fun new =>
        (t.setObject target new, true) := by
    rw [Copy.Heap.set, if_neg fun hnot => hnot.2.1 harray']
    cases (objectAt t.objects target).set key (v.map s.address) <;> rfl
  have hset : s.set (.proxy i) key v = (data.set key v').elim
      (s.changed extra i (.array target (some data)), false) fun new =>
        (s.changed extra i (.array target (some new)), true) := by
    simp only [Augmented.Heap.set, hi, haugment, ← hdata]
    cases data.set key v' <;> rfl
  rw [hset, hset']
  cases hnew : data.set key v' with
  | none =>
    rw [hnew, Option.map_none, Option.map_none, Option.map_eq_none_iff] at hsame
    rw [hsame]
    obtain ⟨hsim, hlater'⟩ := @Simulates.overwrite_array s t i extra target newData h hi hextra
      hfree data harray (fun key value hget => (hlater data).allowed (h.allowed_data hi hget))
      (objectAt t.objects target) (hview.trans hmap.symm) fun _ _ hget => hget
    rw [Copy.Heap.setObject_self] at hsim hlater'
    exact ⟨hsim, hlater', rfl⟩
  | some new =>
    rw [hnew, Option.map_some, Option.map_some] at hsame
    obtain ⟨o, ho, hoview⟩ := Option.map_eq_some_iff.mp hsame
    rw [ho]
    have hnewArray : new.isArray = true := by
      rw [← harray, ← @JsObject.isArray_set_getD _ key data v', hnew, Option.getD_some]
    have hparts : ∀ key' value, new.props.get? key' = some value →
        Allowed (s.changed extra i (.array target (some new))) t true value := by
      intro key' value hget
      rcases JsObject.get?_of_set hnew hget with ⟨-, rfl⟩ | hget
      · exact (hafter i _ (.array target (some new)) t hi rfl).2
      · exact (hlater new).allowed (h.allowed_data hi hget)
    obtain ⟨hsim, hlater'⟩ := @Simulates.overwrite_array s t i extra target newData h hi hextra
      hfree new hnewArray hparts o (by rw [haddress', hoview]) fun key' b hget => by
        rcases JsObject.get?_of_set hnew hget with ⟨-, hplain⟩ | hget
        · exact absurd hplain.symm (hne b)
        · exact hget
    exact ⟨hsim, hlater', rfl⟩

end Array

/-- An object that is no part of the copy is set in both heaps. -/
theorem Simulates.set_raw (h : Simulates s t) {a : ℕ} (ha : a < s.objects.length)
    (hraw : t.copied a = false) (hv : Allowed s t false v) :
    SameDone s t (s.set (.plain a) key v) (t.set a key (v.map s.address)) := by
  have hview := h.views a ha
  rw [h.view_raw hraw] at hview
  have hsame : ((objectAt t.objects a).set key (v.map s.address)).map JsObject.view =
      (((objectAt s.objects a).set key v).map JsObject.view).map (map s.address) := by
    rw [JsObject.view_set, JsObject.view_set, hview, map_set]
  have hnot : ¬ (t.copied a ∧ ¬ (objectAt t.objects a).isArray ∧
      v.map s.address = .undefined) := by
    rw [hraw]
    exact fun hcopied => Bool.false_ne_true hcopied.1
  rw [Copy.Heap.set, if_neg hnot, Augmented.Heap.set]
  cases hnew : (objectAt s.objects a).set key v with
  | none =>
    rw [hnew, Option.map_none, Option.map_none, Option.map_eq_none_iff] at hsame
    rw [hsame]
    exact ⟨h, .refl, rfl⟩
  | some new =>
    rw [hnew, Option.map_some, Option.map_some] at hsame
    obtain ⟨o, ho, hoview⟩ := Option.map_eq_some_iff.mp hsame
    rw [ho]
    refine ⟨h.setObject ha hraw hoview fun key' value hget => ?_, later_setObject hraw, rfl⟩
    rcases JsObject.get?_of_set hnew hget with ⟨-, rfl⟩ | hget
    · exact hv
    · rw [← hraw]
      exact h.objects a ha key' value hget

/-- **Setting.** -/
theorem Simulates.set (h : Simulates s t) {r : Ref} (hr : Allowed s t false (.reference r))
    (hv : Root s t (t.copied (s.address r) && (objectAt t.objects (s.address r)).isArray) v)
    (hkey : t.copied (s.address r) → ¬ (objectAt t.objects (s.address r)).isArray →
      v.map s.address = .undefined → key ∉ inheritedNames false) :
    SameDone s t (s.set r key v) (t.set (s.address r) key (v.map s.address)) := by
  match r, hr with
  | .plain a, ⟨ha, hraw⟩ =>
    refine h.set_raw ha hraw ?_
    have hallowed := hv.allowed
    rwa [show t.copied (s.address (.plain a)) = false from hraw, Bool.false_and] at hallowed
  | .proxy i, hr =>
    obtain ⟨p, hi, haddress⟩ := hr.exists_proxy
    have hcopied := (h.proxyOf hi).copied
    have harray : (objectAt t.objects p.target).isArray = p.isArray :=
      (congrArg isArray (h.view_copy hi)).trans (h.proxyOf hi).isArray_view
    rw [haddress] at hkey hv ⊢
    rw [harray] at hkey hv
    rw [hcopied, Bool.true_and] at hv
    replace hkey := hkey hcopied
    cases p with
    | object target newData deletedProperties =>
      exact h.set_object hi hv.allowed fun hundefined =>
        hkey Bool.false_ne_true (JsValue.map_eq_undefined.mpr hundefined)
    | array target newData => exact h.set_array hi hv

theorem View.map_delete {ρ τ : Type} {f : ρ → τ} {view : View ρ} :
    (view.map f).delete key = ((view.delete key).1.map f, (view.delete key).2) := by
  unfold delete
  by_cases hlength : view.isArray ∧ key = "length"
  · have hlength' : (view.map f).isArray ∧ key = "length" := hlength
    rw [if_pos hlength, if_pos hlength']
  · have hlength' : ¬ ((view.map f).isArray ∧ key = "length") := hlength
    rw [if_neg hlength, if_neg hlength', Prod.mk.injEq]
    exact ⟨(@View.map_put key _ _ f view none).symm, rfl⟩

/-- The same property is deleted on both sides. -/
theorem delete_view {o : JsObject Ref} {o' : JsObject ℕ} {f : Ref → ℕ}
    (h : o'.view = o.view.map f) :
    (o'.delete key).1.view = (o.delete key).1.view.map f ∧ (o.delete key).2 = (o'.delete key).2 := by
  have hview := @JsObject.view_delete _ o key
  have hview' := @JsObject.view_delete _ o' key
  rw [h, map_delete, ← hview] at hview'
  exact ⟨congrArg Prod.fst hview', (congrArg Prod.snd hview').symm⟩

theorem JsObject.get?_of_delete {o : JsObject ρ} {key' : String} {value : JsValue ρ}
    (h : (o.delete key).1.props.get? key' = some value) : o.props.get? key' = some value := by
  unfold JsObject.delete at h
  split_ifs at h
  · exact h
  · simp only [get?_delete] at h
    split_ifs at h
    exact h

theorem JsObject.isArray_delete {o : JsObject ρ} : (o.delete key).1.isArray = o.isArray := by
  unfold JsObject.delete
  split_ifs <;> rfl

/-- **Deleting.** -/
theorem Simulates.delete (h : Simulates s t) {r : Ref} (hr : Allowed s t false (.reference r))
    (hkey : t.copied (s.address r) → ¬ (objectAt t.objects (s.address r)).isArray →
      key ∉ inheritedNames false) :
    SameDone s t (s.delete r key) (t.delete (s.address r) key) := by
  match r, hr with
  | .plain a, ⟨ha, hraw⟩ =>
    have hview := h.views a ha
    rw [h.view_raw hraw] at hview
    obtain ⟨hdeleted, hsuccess⟩ := @delete_view key _ _ _ hview
    refine ⟨h.setObject ha hraw hdeleted fun key' value hget => ?_, later_setObject hraw, hsuccess⟩
    rw [← hraw]
    exact h.objects a ha key' value (JsObject.get?_of_delete hget)
  | .proxy i, hr =>
    obtain ⟨p, hi, haddress⟩ := hr.exists_proxy
    have hproxy := h.proxyOf hi
    have hview := h.view_copy hi
    have harray : (objectAt t.objects p.target).isArray = p.isArray :=
      (congrArg isArray hview).trans hproxy.isArray_view
    rw [haddress] at hkey ⊢
    rw [harray] at hkey
    replace hkey := hkey hproxy.copied
    cases p with
    | object target newData deletedProperties =>
      have harray' : (objectAt t.objects target).view.isArray = false := harray
      have hviews := @JsObject.view_delete _ (objectAt t.objects target) key
      rw [delete_object harray'] at hviews
      obtain ⟨hsim, hlater⟩ := h.delete_overlay hi (hkey Bool.false_ne_true) rfl
        (congrArg Prod.fst hviews)
      simp only [Augmented.Heap.delete, hi]
      exact ⟨hsim, hlater, (congrArg Prod.snd hviews).symm⟩
    | array target newData =>
      obtain ⟨hdeleted, hsuccess⟩ := @delete_view key _ _ _ hview
      set data := newData.getD (objectAt s.objects target) with hdata
      have hlater : Later s t (s.changed [] i (.array target (some (data.delete key).1))) t :=
        later_changed hi rfl rfl
      have hmap := h.map_view_later hlater (h.proxyOf hi).lt
      rw [h.view_proxy hi] at hmap
      have hdataArray : data.isArray = true := (h.proxyOf hi).isArray_view
      have hdeleted' := (@delete_view key _ _ _ (hview.trans hmap.symm)).1
      obtain ⟨hsim, hlater'⟩ := @Simulates.overwrite_array s t i [] target newData h hi .nil
        (by simp) (data.delete key).1 (by rw [JsObject.isArray_delete, hdataArray])
        (fun key' value hget => hlater.allowed (h.allowed_data hi (JsObject.get?_of_delete hget)))
        _ hdeleted' fun key' b hget => JsObject.get?_of_delete hget
      simp only [Augmented.Heap.delete, hi, Augmented.Heap.setProxy_eq_changed]
      exact ⟨hsim, hlater', hsuccess⟩

end Set

/-! ## Names -/

section Names

variable {s : Augmented.Heap} {t : Copy.Heap} {key : String}

theorem View.has_object {ρ : Type} {view : View ρ} (h : view.isArray = false) :
    view.has key = ((view.get? key).isSome || decide (key ∈ inheritedNames false)) := by
  rw [View.has, View.own_object h, h]

/-- **Whether there is a property.** -/
theorem Simulates.has (h : Simulates s t) {r : Ref} (hr : Allowed s t false (.reference r)) :
    s.has r key = t.has (s.address r) key := by
  match r, hr with
  | .plain a, ⟨ha, hraw⟩ =>
    have hview := h.views a ha
    rw [h.view_raw hraw] at hview
    exact (View.map_has.symm.trans (congrArg (View.has · key) hview.symm))
  | .proxy i, hr =>
    obtain ⟨p, hi, haddress⟩ := hr.exists_proxy
    have hview := h.view_copy hi
    rw [haddress]
    have hcopy : t.has p.target key = (p.view (objectAt s.objects p.target)).has key :=
      (congrArg (View.has · key) hview).trans View.map_has
    rw [hcopy]
    cases p with
    | object target newData deletedProperties =>
      have hproxy := h.proxyOf hi
      have harray : (objectAt s.objects target).view.isArray = false := hproxy.isArray.symm
      have hproxyArray : ((Proxy.object target newData deletedProperties).view
          (objectAt s.objects target)).isArray = false := harray
      simp only [Augmented.Heap.has, hi]
      refine Eq.trans ?_ (has_object hproxyArray).symm
      rw [has_object harray]
      by_cases hdeleted : key ∈ deletedProperties
      · have hname : key ∉ inheritedNames false := hproxy.allowed.1 key hdeleted
        simp [Proxy.view, hdeleted, hname]
      · rw [if_neg hdeleted]
        cases hnew : newData.get? key with
        | some value => simp [Proxy.view, hdeleted, hnew]
        | none =>
          simp only [Proxy.view, if_neg hdeleted, hnew, Option.none_or]
          rfl
    | array target newData =>
      simp only [Augmented.Heap.has, hi]
      rfl

/-- **The names of the properties.** -/
theorem Simulates.ownKeys (h : Simulates s t) {r : Ref} (hr : Allowed s t false (.reference r)) :
    (s.ownKeys r).Perm (t.ownKeys (s.address r)) := by
  have hown : ∀ {view : View Ref} {view' : View ℕ}, view' = view.map s.address →
      ∀ key, (view.own key).isSome ↔ (view'.own key).isSome := by
    rintro view _ rfl key
    rw [View.map_own, Option.isSome_map]
  match r, hr with
  | .plain a, ⟨ha, hraw⟩ =>
    have hview := h.views a ha
    rw [h.view_raw hraw] at hview
    refine (List.perm_ext_iff_of_nodup JsObject.nodup_ownKeys JsObject.nodup_ownKeys).mpr ?_
    intro key
    rw [JsObject.mem_ownKeys, JsObject.mem_ownKeys]
    exact hown hview key
  | .proxy i, hr =>
    obtain ⟨p, hi, haddress⟩ := hr.exists_proxy
    have hview := h.view_copy hi
    rw [haddress]
    have hkeys : ∀ key, key ∈ t.ownKeys p.target ↔
        ((p.view (objectAt s.objects p.target)).own key).isSome := by
      intro key
      rw [hown hview key]
      exact JsObject.mem_ownKeys
    cases p with
    | object target newData deletedProperties =>
      have harray : (objectAt s.objects target).view.isArray = false :=
        (h.proxyOf hi).isArray.symm
      have hproxyArray : ((Proxy.object target newData deletedProperties).view
          (objectAt s.objects target)).isArray = false := harray
      simp only [Augmented.Heap.ownKeys, hi]
      refine (List.perm_ext_iff_of_nodup ?_ JsObject.nodup_ownKeys).mpr fun key => ?_
      · exact (OrderedSet.nodup_eraseDups _).filter _
      · refine Iff.trans ?_ (hkeys key).symm
        rw [List.mem_filter, List.mem_eraseDups, List.mem_append, JsObject.mem_ownKeys,
          View.own_object harray, mem_keys]
        refine Iff.trans ?_
          (congrArg (fun value => value.isSome = true) (View.own_object hproxyArray)).symm.to_iff
        by_cases hdeleted : key ∈ deletedProperties
        · simp [Proxy.view, hdeleted]
        · simp [Proxy.view, hdeleted, JsObject.view, Option.isSome_iff_exists, or_comm]
    | array target newData =>
      simp only [Augmented.Heap.ownKeys, hi]
      refine (List.perm_ext_iff_of_nodup JsObject.nodup_ownKeys JsObject.nodup_ownKeys).mpr ?_
      intro key
      refine Iff.trans ?_ (hkeys key).symm
      exact JsObject.mem_ownKeys

end Names

/-! ## Programs -/

section Programs

def objectHeld {ρ : Type} (held : List (JsValue ρ)) (handle : ℕ) : Option ρ :=
  match heldAt held handle with
  | .reference r => some r
  | _ => none

/-- The operations that the traps agree with the copy on: an own constructor is not read, what is
inherited by an object of the copy is not deleted, and what is stored in an array of the copy is new
or part of the copy. Prototypes are left alone. -/
def Admissible (state : Copy.Heap × List Copy.Value) : Operation → Prop
  | .get handle key => ∀ a ∈ objectHeld state.2 handle, key ≠ "__proto__" ∧
      (state.1.copied a → key = "constructor" → (objectAt state.1.objects a).view.own key = none)
  | .set handle key data => ∀ a ∈ objectHeld state.2 handle, key ≠ "__proto__" ∧
      (state.1.copied a →
        if (objectAt state.1.objects a).isArray then
          ∀ n ∈ handles data, ∀ b ∈ objectHeld state.2 n, state.1.copied b
        else (alloc id (heldAt state.2) state.1.objects data).2 = .undefined →
          key ∉ inheritedNames false)
  | .delete handle key => ∀ a ∈ objectHeld state.2 handle, state.1.copied a →
      ¬ (objectAt state.1.objects a).isArray → key ∉ inheritedNames false
  | .has _ _ => True
  | .ownKeys _ => True

instance (state : Copy.Heap × List Copy.Value) (operation : Operation) :
    Decidable (Admissible state operation) := by
  cases operation <;> unfold Admissible <;> infer_instance

def AdmissibleRun (state : Copy.Heap × List Copy.Value) : List Operation → Prop
  | [] => True
  | operation :: rest => Admissible state operation ∧
      AdmissibleRun (step Copy.semantics state operation).1 rest

def Answer.Same : Answer → Answer → Prop
  | .keys names, .keys names' => names.Perm names'
  | answer, answer' => answer = answer'

theorem Answer.Same.refl (answer : Answer) : answer.Same answer := by
  cases answer <;> simp [Answer.Same]

theorem Answer.Same.of_eq {answer answer' : Answer} (h : answer = answer') :
    answer.Same answer' := by
  rw [h]
  exact .refl answer'

/-- The states of a program on both sides. -/
structure Related (state : Augmented.Heap × List Augmented.Value)
    (state' : Copy.Heap × List Copy.Value) : Prop where
  simulates : Simulates state.1 state'.1
  allowed : ∀ v ∈ state.2, Allowed state.1 state'.1 false v
  held : state'.2 = state.2.map (JsValue.map state.1.address)

variable {state : Augmented.Heap × List Augmented.Value} {state' : Copy.Heap × List Copy.Value}

theorem heldAt_map {ρ τ : Type} {f : ρ → τ} {held : List (JsValue ρ)} {handle : ℕ} :
    heldAt (held.map (JsValue.map f)) handle = (heldAt held handle).map f := by
  rw [heldAt, heldAt, List.getElem?_map]
  cases held[handle]? <;> rfl

theorem Related.heldAt (h : Related state state') (handle : ℕ) :
    Allowed state.1 state'.1 false (heldAt state.2 handle) := by
  unfold DataProxy.heldAt
  cases hv : state.2[handle]? with
  | none => trivial
  | some v => exact h.allowed v (List.mem_of_getElem? hv)

/-- What is held stays what it is. -/
theorem Related.later (h : Related state state') {s : Augmented.Heap} {t : Copy.Heap}
    (hsim : Simulates s t) (hlater : Later state.1 state'.1 s t) :
    Related (s, state.2) (t, state'.2) := by
  refine ⟨hsim, fun v hv => hlater.allowed (h.allowed v hv), ?_⟩
  rw [h.held]
  exact List.map_congr_left fun v hv => (hlater.map_address (h.allowed v hv)).symm

theorem Related.append (h : Related state state') {v : Augmented.Value}
    (hv : Allowed state.1 state'.1 false v) :
    Related (state.1, state.2 ++ [v]) (state'.1, state'.2 ++ [v.map state.1.address]) := by
  refine ⟨h.simulates, ?_, ?_⟩
  · intro w hw
    rcases List.mem_append.mp hw with hw | hw
    · exact h.allowed w hw
    · rw [List.mem_singleton.mp hw]
      exact hv
  · rw [h.held, List.map_append, List.map_singleton]

/-- A value shows as the same position on both sides. -/
theorem Related.shown (h : Related state state') {v : Augmented.Value}
    (hv : Allowed state.1 state'.1 false v) :
    shown state.2 v = shown state'.2 (v.map state.1.address) := by
  have hidx : ∀ held : List Augmented.Value, (∀ w ∈ held, Allowed state.1 state'.1 false w) →
      (held.map (JsValue.map state.1.address)).idxOf (v.map state.1.address) = held.idxOf v := by
    intro held hheld
    induction held with
    | nil => rfl
    | cons w held ih =>
      have hw := hheld w List.mem_cons_self
      rw [List.map_cons, List.idxOf_cons, List.idxOf_cons,
        ih fun w hw => hheld w (List.mem_cons_of_mem _ hw)]
      by_cases heq : w = v
      · simp [heq]
      · have hne : w.map state.1.address ≠ v.map state.1.address :=
          fun hsame => heq (h.simulates.injective hw hv hsame)
        rw [beq_eq_false_iff_ne.mpr heq, beq_eq_false_iff_ne.mpr hne]
  rw [DataProxy.shown, DataProxy.shown, h.held, hidx state.2 h.allowed]
  cases v <;> rfl

theorem Simulates.address_lt {s : Augmented.Heap} {t : Copy.Heap} (h : Simulates s t) {r : Ref}
    (hr : Allowed s t false (.reference r)) : s.address r < s.objects.length := by
  match r, hr with
  | .plain a, hr => exact hr.1
  | .proxy i, hr =>
    obtain ⟨p, hi, haddress⟩ := hr.exists_proxy
    rw [haddress]
    exact (h.proxyOf hi).lt

/-- **Setting data.** -/
theorem Related.set (h : Related state state') {r : Ref} {key : String} {data : Data ℕ}
    (hr : Allowed state.1 state'.1 false (.reference r))
    (hkey : state'.1.copied (state.1.address r) →
      if (objectAt state'.1.objects (state.1.address r)).isArray then
        ∀ n ∈ handles data, ∀ b ∈ objectHeld state'.2 n, state'.1.copied b
      else (alloc id (DataProxy.heldAt state'.2) state'.1.objects data).2 = .undefined →
        key ∉ inheritedNames false) :
    SameDone state.1 state'.1
      (Augmented.semantics.set state.1 r key (DataProxy.heldAt state.2) data)
      (Copy.semantics.set state'.1 (state.1.address r) key (DataProxy.heldAt state'.2) data) := by
  obtain ⟨s, held⟩ := state
  obtain ⟨t, held'⟩ := state'
  have hheld : ∀ n, Allowed s t false (DataProxy.heldAt held n) := h.heldAt
  have hcopy : ∀ n, DataProxy.heldAt held' n = (DataProxy.heldAt held n).map s.address := by
    intro n
    rw [show held' = held.map (JsValue.map s.address) from h.held, heldAt_map]
  have hheld' : (fun n => (DataProxy.heldAt held n).map s.address) = DataProxy.heldAt held' :=
    funext fun n => (hcopy n).symm
  set part := t.copied (s.address r) && (objectAt t.objects (s.address r)).isArray with hpart
  have hlt := h.simulates.address_lt hr
  have hparts : part → ∀ n ∈ handles data, ∀ b,
      DataProxy.heldAt held n ≠ .reference (.plain b) := by
    intro hp n hn b hb
    have hraw := hheld n
    rw [hb] at hraw
    obtain ⟨hcopied, harray⟩ := Bool.and_eq_true_iff.mp hp
    have hall := hkey hcopied
    rw [if_pos harray] at hall
    have hmem : b ∈ objectHeld held' n := by
      rw [objectHeld, hcopy, hb]
      rfl
    have := hall n hn b hmem
    rw [hraw.2] at this
    cases this
  obtain ⟨hsim, hlater, hroot, hvalue⟩ := @Simulates.create s t ℕ (DataProxy.heldAt held)
    h.simulates hheld part data hparts
  rw [hheld'] at hsim hlater hroot hvalue
  have hcopied : (t.created (DataProxy.heldAt held') part data).copied (s.address r) =
      t.copied (s.address r) := hlater.copied _ hlt
  have hobject : objectAt (t.created (DataProxy.heldAt held') part data).objects (s.address r) =
      objectAt t.objects (s.address r) := by
    obtain ⟨-, ⟨new, hnew⟩, -⟩ := @alloc_tree _ _ id (DataProxy.heldAt held') t.objects data
    rw [Copy.Heap.created, ← hnew, objectAt_append (h.simulates.length ▸ hlt)]
  have haddress : (s.created (DataProxy.heldAt held) data).address = s.address := rfl
  have hdone := @Simulates.set _ _ key _ hsim r (hlater.allowed hr)
    (by rw [haddress, hcopied, hobject, ← hpart]; exact hroot)
  rw [haddress, hcopied, hobject] at hdone
  have hset := hdone fun hc harray hundefined => by
    have hall := hkey hc
    rw [if_neg harray] at hall
    exact hall (hvalue.trans hundefined)
  rw [← hvalue] at hset
  exact ⟨hset.simulates, hlater.trans hset.later, hset.success⟩

theorem objectHeld_eq_some {ρ : Type} {held : List (JsValue ρ)} {handle : ℕ} {r : ρ}
    (h : heldAt held handle = .reference r) : objectHeld held handle = some r := by
  rw [objectHeld, h]

/-- **One operation** of a program. -/
theorem step_same (h : Related state state') {operation : Operation}
    (hop : Admissible state' operation) :
    Related (step Augmented.semantics state operation).1 (step Copy.semantics state' operation).1 ∧
      (step Augmented.semantics state operation).2.Same
        (step Copy.semantics state' operation).2 ∧
      Later state.1 state'.1 (step Augmented.semantics state operation).1.1
        (step Copy.semantics state' operation).1.1 := by
  have hcopy : ∀ handle, heldAt state'.2 handle =
      (heldAt state.2 handle).map state.1.address := by
    intro handle
    rw [h.held, heldAt_map]
  have hobject : ∀ {handle r}, heldAt state.2 handle = .reference r →
      objectHeld state'.2 handle = some (state.1.address r) := by
    intro handle r hv
    refine objectHeld_eq_some ?_
    rw [hcopy, hv]
    rfl
  -- what is no object is none on both sides
  have hnone : ∀ {answer : Answer}, Related state state' ∧ answer.Same answer ∧
      Later state.1 state'.1 state.1 state'.1 := ⟨h, .refl _, .refl⟩
  cases operation with
  | get handle key =>
    have hallowed := h.heldAt handle
    simp only [step, hcopy]
    cases hv : heldAt state.2 handle with
    | primitive p => exact hnone
    | builtin ofArray name => exact hnone
    | reference r =>
      rw [hv] at hallowed
      obtain ⟨-, hkey⟩ := hop _ (hobject hv)
      have hread := h.simulates.get hallowed hkey
      have happend := (h.later hread.simulates hread.later).append hread.allowed
      rw [← hread.value] at happend
      refine ⟨happend, ?_, hread.later⟩
      have hshown := happend.shown (happend.allowed _ (List.mem_append_right _ List.mem_cons_self))
      rw [← hread.value] at hshown
      exact congrArg Answer.value hshown
  | set handle key data =>
    have hallowed := h.heldAt handle
    simp only [step, hcopy]
    cases hv : heldAt state.2 handle with
    | primitive p => exact hnone
    | builtin ofArray name => exact hnone
    | reference r =>
      rw [hv] at hallowed
      obtain ⟨-, hkey⟩ := hop _ (hobject hv)
      obtain ⟨hsim, hlater, hsuccess⟩ := h.set hallowed hkey
      refine ⟨h.later hsim hlater, ?_, hlater⟩
      refine Answer.Same.of_eq ?_
      exact congrArg (fun success => if success then Answer.done true else .error) hsuccess
  | delete handle key =>
    have hallowed := h.heldAt handle
    simp only [step, hcopy]
    cases hv : heldAt state.2 handle with
    | primitive p => exact hnone
    | builtin ofArray name => exact hnone
    | reference r =>
      rw [hv] at hallowed
      obtain ⟨hsim, hlater, hsuccess⟩ := h.simulates.delete hallowed (hop _ (hobject hv))
      refine ⟨h.later hsim hlater, ?_, hlater⟩
      exact congrArg Answer.done hsuccess
  | has handle key =>
    have hallowed := h.heldAt handle
    simp only [step, hcopy]
    cases hv : heldAt state.2 handle with
    | primitive p => exact hnone
    | builtin ofArray name => exact hnone
    | reference r =>
      rw [hv] at hallowed
      refine ⟨h, ?_, .refl⟩
      exact congrArg Answer.done (h.simulates.has hallowed)
  | ownKeys handle =>
    have hallowed := h.heldAt handle
    simp only [step, hcopy]
    cases hv : heldAt state.2 handle with
    | primitive p => exact hnone
    | builtin ofArray name => exact hnone
    | reference r =>
      rw [hv] at hallowed
      exact ⟨h, h.simulates.ownKeys hallowed, .refl⟩

/-- **All operations** of a program. -/
theorem run_same {operations : List Operation} (h : Related state state')
    (hops : AdmissibleRun state' operations) :
    List.Forall₂ Answer.Same (run Augmented.semantics state operations).2
        (run Copy.semantics state' operations).2 ∧
      Later state.1 state'.1 (run Augmented.semantics state operations).1.1
        (run Copy.semantics state' operations).1.1 := by
  induction operations generalizing state state' with
  | nil => exact ⟨.nil, .refl⟩
  | cons operation rest ih =>
    obtain ⟨hop, hrest⟩ := hops
    obtain ⟨hstep, hsame, hlater⟩ := step_same h hop
    obtain ⟨hall, hlater'⟩ := ih hstep hrest
    exact ⟨.cons hsame hall, hlater.trans hlater'⟩

/-- The augmented object and the copy to begin with. -/
theorem related_initial (base : Fields Empty) :
    Related (Augmented.initial base) (Copy.initial base) := by
  have hempty : Simulates ⟨[], []⟩ ⟨[], fun _ => true⟩ := by
    refine ⟨rfl, List.nodup_nil, ?_, ?_, ?_, ?_, ?_⟩
    · simp
    · simp
    · simp
    · simp
    · rintro a key a' key' part ⟨ha, -⟩
      cases ha
  obtain ⟨hsim, -, hroot, hvalue⟩ := @Simulates.create ⟨[], []⟩ ⟨[], fun _ => true⟩ Empty
    Empty.elim hempty (fun a => a.elim) true (.object false base) (fun _ a => a.elim)
  set objects := (alloc Ref.plain Empty.elim [] (.object false base)).1
  set root := (allocFields Ref.plain Empty.elim [] (.empty false) base).1.length
  have hheld : (fun a : Empty => (Empty.elim a : Augmented.Value).map
      (address ⟨[], []⟩)) = Empty.elim := funext fun a => a.elim
  rw [hheld] at hsim hroot hvalue
  have hcreated : Copy.Heap.created ⟨[], fun _ => true⟩ Empty.elim true (.object false base) =
      (Copy.initial base).1 := by
    simp [Copy.Heap.created, Copy.initial]
  rw [hcreated] at hsim hroot
  have hpush := hsim.push (hroot.unproxied root rfl rfl) (hroot.free root rfl rfl)
  refine ⟨hpush, ?_, ?_⟩
  · exact List.forall_mem_singleton.mpr Nat.zero_lt_one
  · have haddress : (Augmented.initial base).1.address (.proxy 0) = root := Proxy.target_fresh
    change [(alloc id Empty.elim [] (.object false base)).2] =
      [JsValue.reference ((Augmented.initial base).1.address (.proxy 0))]
    rw [hvalue, haddress]
    rfl

end Programs

/-! ## The private copy -/

/-- **An augmented object is a private copy.** -/
theorem augmentObject_private (base : Fields Empty) (operations : List Operation)
    (h : AdmissibleRun (Copy.initial base) operations) :
    List.Forall₂ Answer.Same (run Augmented.semantics (Augmented.initial base) operations).2
        (run Copy.semantics (Copy.initial base) operations).2 ∧
      (Augmented.initial base).1.objects <+:
        (run Augmented.semantics (Augmented.initial base) operations).1.1.objects := by
  obtain ⟨hall, hlater⟩ := run_same (related_initial base) h
  refine ⟨hall, ?_⟩
  rw [List.prefix_iff_getElem?]
  intro a ha
  rw [hlater.base a ha rfl]
  exact List.getElem?_eq_getElem ha

/-- Nested data is read, changed, deleted and listed. -/
theorem augmentObject_private_nested :
    List.Forall₂ Answer.Same
        (run Augmented.semantics
          (Augmented.initial (.cons "name" (.primitive (.string "n8n"))
            (.cons "list" (.object true (.cons "" (.primitive (.number 1)) .nil)) .nil)))
          [.get 0 "list", .set 1 "1" (.object false .nil), .get 1 "1", .set 2 "done" (.held 1),
            .set 0 "name" (.primitive .undefined), .has 0 "name", .ownKeys 0, .get 1 "length"]).2
        (run Copy.semantics
          (Copy.initial (.cons "name" (.primitive (.string "n8n"))
            (.cons "list" (.object true (.cons "" (.primitive (.number 1)) .nil)) .nil)))
          [.get 0 "list", .set 1 "1" (.object false .nil), .get 1 "1", .set 2 "done" (.held 1),
            .set 0 "name" (.primitive .undefined), .has 0 "name", .ownKeys 0, .get 1 "length"]).2 ∧
      (Augmented.initial (.cons "name" (.primitive (.string "n8n"))
          (.cons "list" (.object true (.cons "" (.primitive (.number 1)) .nil)) .nil))).1.objects <+:
        (run Augmented.semantics
          (Augmented.initial (.cons "name" (.primitive (.string "n8n"))
            (.cons "list" (.object true (.cons "" (.primitive (.number 1)) .nil)) .nil)))
          [.get 0 "list", .set 1 "1" (.object false .nil), .get 1 "1", .set 2 "done" (.held 1),
            .set 0 "name" (.primitive .undefined), .has 0 "name", .ownKeys 0,
            .get 1 "length"]).1.1.objects := by
  apply augmentObject_private
  refine ⟨?_, ?_, ?_, ?_, ?_, ?_, ?_, ?_, trivial⟩ <;> decide

/-- A property named `constructor` reads as the constructor of plain objects, what was deleted hides
what is inherited, and an object that is stored in an array is read as another object. -/
theorem not_augmentObject_private :
    ¬ List.Forall₂ Answer.Same
        (run Augmented.semantics
          (Augmented.initial (.cons "constructor" (.primitive (.number 1)) .nil))
          [.get 0 "constructor"]).2
        (run Copy.semantics (Copy.initial (.cons "constructor" (.primitive (.number 1)) .nil))
          [.get 0 "constructor"]).2 ∧
      ¬ List.Forall₂ Answer.Same
        (run Augmented.semantics
          (Augmented.initial (.cons "toString" (.primitive (.number 1)) .nil))
          [.delete 0 "toString", .has 0 "toString"]).2
        (run Copy.semantics (Copy.initial (.cons "toString" (.primitive (.number 1)) .nil))
          [.delete 0 "toString", .has 0 "toString"]).2 ∧
      ¬ List.Forall₂ Answer.Same
        (run Augmented.semantics (Augmented.initial (.cons "list" (.object true .nil) .nil))
          [.set 0 "x" (.object false .nil), .get 0 "x", .get 0 "list", .set 2 "0" (.held 1),
            .get 2 "0"]).2
        (run Copy.semantics (Copy.initial (.cons "list" (.object true .nil) .nil))
          [.set 0 "x" (.object false .nil), .get 0 "x", .get 0 "list", .set 2 "0" (.held 1),
            .get 2 "0"]).2 := by
  refine ⟨?_, ?_, ?_⟩
  · rintro (_ | ⟨hsame, -⟩)
    cases hsame
  · rintro (_ | ⟨-, (_ | ⟨hsame, -⟩)⟩)
    cases hsame
  · rintro (_ | ⟨-, (_ | ⟨-, (_ | ⟨-, (_ | ⟨-, (_ | ⟨hsame, -⟩)⟩)⟩)⟩)⟩)
    cases hsame

end N8n.DataProxy
