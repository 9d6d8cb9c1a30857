import N8n.DataProxy.AugmentObject

/-!
# An augmented object and a deep copy

The objects of the deep copy are those that the proxies show. An object that no proxy was made for
yet shows as it is, and it is reached under one property only, so that no second proxy is made for
it.

## Main definitions

* `Augmented.Heap.view`: what an object shows through its proxy
* `Augmented.Heap.address`: the object behind a reference
* `Simulates`: the invariant that joins the two heaps
* `Later`: what no operation takes back

## Main results

* `Simulates.change`: what a change of proxies must keep
* `Simulates.setObject`: what a change of an object that is no part of the copy must keep
* `Simulates.create`, `Simulates.push`: new objects, and a proxy that nothing else shows
-/

namespace N8n.DataProxy

open Augmented.Heap

open StaticData (Primitive Data Fields)
open Augmented (Ref Proxy)

/-! ## What a proxy shows -/

namespace Augmented

namespace Proxy

def target : Proxy → ℕ
  | .object target _ _ => target
  | .array target _ => target

def isArray : Proxy → Bool
  | .object _ _ _ => false
  | .array _ _ => true

/-- The object with the overlay, or the changed array. -/
def view (object : JsObject Ref) : Proxy → View Ref
  | .object _ newData deletedProperties =>
    { object.view with
      get? := fun key =>
        if key ∈ deletedProperties then none else (newData.get? key).or (object.props.get? key) }
  | .array _ newData => (newData.getD object).view

def fresh (objects : List (JsObject Ref)) (address : ℕ) : Proxy :=
  if (objectAt objects address).isArray then .array address none else .object address .empty []

variable {objects : List (JsObject Ref)} {address : ℕ}

@[simp] theorem target_fresh : (fresh objects address).target = address := by
  unfold fresh
  split_ifs <;> rfl

@[simp] theorem isArray_fresh :
    (fresh objects address).isArray = (objectAt objects address).isArray := by
  unfold fresh
  split_ifs with h
  · exact h.symm
  · exact (Bool.eq_false_iff.mpr h).symm

@[simp] theorem view_fresh :
    (fresh objects address).view (objectAt objects address) = (objectAt objects address).view := by
  unfold fresh
  split_ifs
  · rfl
  · simp [view, JsObject.view]

end Proxy

namespace Heap

/-- What an object shows, through its proxy if it has one. -/
def view (heap : Heap) (address : ℕ) : View Ref :=
  match heap.proxies.find? fun proxy => proxy.target = address with
  | some proxy => proxy.view (objectAt heap.objects address)
  | none => (objectAt heap.objects address).view

/-- The object behind a reference. -/
def address (heap : Heap) : Ref → ℕ
  | .plain address => address
  | .proxy index => (heap.proxies[index]?.map Proxy.target).getD 0

variable {heap : Heap}

theorem view_of_unproxied {address : ℕ} (h : ∀ p ∈ heap.proxies, p.target ≠ address) :
    heap.view address = (objectAt heap.objects address).view := by
  rw [view, List.find?_eq_none.mpr fun p hp => by simpa using h p hp]

theorem view_of_proxy (hnodup : (heap.proxies.map Proxy.target).Nodup) {p : Proxy}
    (hp : p ∈ heap.proxies) : heap.view p.target = p.view (objectAt heap.objects p.target) := by
  cases hfind : heap.proxies.find? fun proxy => proxy.target = p.target with
  | none => exact absurd (List.find?_eq_none.mp hfind p hp) (by simp)
  | some q =>
    have htarget : q.target = p.target := by simpa using List.find?_some hfind
    obtain rfl : q = p :=
      List.inj_on_of_nodup_map hnodup (List.mem_of_find?_eq_some hfind) hp htarget
    rw [view, hfind]

theorem address_proxy {index : ℕ} {p : Proxy} (h : heap.proxies[index]? = some p) :
    heap.address (.proxy index) = p.target := by
  rw [address, h]
  rfl

end Heap

end Augmented

/-! ## The invariant -/

section Invariant

variable (s : Augmented.Heap) (t : Copy.Heap)

/-- What may be stored in an object: proxies, and objects that are part of the copy or that are
not. -/
def Allowed (part : Bool) : Augmented.Value → Prop
  | .reference (.plain address) => address < s.objects.length ∧ t.copied address = part
  | .reference (.proxy index) => index < s.proxies.length
  | _ => True

/-- What may be kept for a proxy: an array has parts of the copy, and an overlay has none. What is
inherited cannot be deleted. -/
def AllowedIn : Proxy → Prop
  | .object _ newData deletedProperties => (∀ key ∈ deletedProperties, key ∉ inheritedNames false) ∧
      ∀ key value, newData.get? key = some value → Allowed s t false value
  | .array _ newData => ∀ data ∈ newData, data.isArray ∧
      ∀ key value, data.props.get? key = some value → Allowed s t true value

structure ProxyOf (p : Proxy) : Prop where
  lt : p.target < s.objects.length
  copied : t.copied p.target
  isArray : p.isArray = (objectAt s.objects p.target).isArray
  allowed : AllowedIn s t p

/-- An object that is part of the copy and that no proxy was made for is under that property. -/
def Under (address : ℕ) (key : String) (part : ℕ) : Prop :=
  address < s.objects.length ∧ (s.view address).get? key = some (.reference (.plain part)) ∧
    t.copied part

/-- What no operation takes back. The objects of the copy are never changed. -/
structure Later (s : Augmented.Heap) (t : Copy.Heap) (s' : Augmented.Heap) (t' : Copy.Heap) :
    Prop where
  objects : s.objects.length ≤ s'.objects.length
  proxies : s.proxies.length ≤ s'.proxies.length
  copied : ∀ a < s.objects.length, t'.copied a = t.copied a
  targets : ∀ i < s.proxies.length,
    s'.proxies[i]?.map Proxy.target = s.proxies[i]?.map Proxy.target
  base : ∀ a < s.objects.length, t.copied a → s'.objects[a]? = s.objects[a]?

/-- **The invariant.** The objects of the copy are those that the proxies show, and a part of the
copy without a proxy is under one property only. -/
structure Simulates : Prop where
  length : t.objects.length = s.objects.length
  targets : (s.proxies.map Proxy.target).Nodup
  proxies : ∀ p ∈ s.proxies, ProxyOf s t p
  views : ∀ a < s.objects.length, (objectAt t.objects a).view = (s.view a).map s.address
  objects : ∀ a < s.objects.length, ∀ key value,
    (objectAt s.objects a).props.get? key = some value → Allowed s t (t.copied a) value
  unproxied : ∀ a key part, Under s t a key part → ∀ p ∈ s.proxies, p.target ≠ part
  once : ∀ a key a' key' part, Under s t a key part → Under s t a' key' part → a = a' ∧ key = key'

end Invariant

section Lemmas

variable {s s' : Augmented.Heap} {t t' : Copy.Heap} {v : Augmented.Value}

/-- References that may be held show different objects. -/
theorem Simulates.injective (h : Simulates s t) {v w : Augmented.Value} (hv : Allowed s t false v)
    (hw : Allowed s t false w) (heq : v.map s.address = w.map s.address) : v = w := by
  have hproxy : ∀ i < s.proxies.length, t.copied (s.address (.proxy i)) := by
    intro i hi
    rw [address_proxy (List.getElem?_eq_getElem hi)]
    exact (h.proxies _ (List.getElem_mem hi)).copied
  match v, w, hv, hw, heq with
  | .primitive p, .primitive q, _, _, heq => simpa [JsValue.map] using heq
  | .builtin a n, .builtin b m, _, _, heq => simpa [JsValue.map] using heq
  | .reference (.plain a), .reference (.plain b), _, _, heq =>
    simpa [JsValue.map, address] using heq
  | .reference (.plain a), .reference (.proxy i), hv, hw, heq =>
    have ha : a = s.address (.proxy i) := by simpa [JsValue.map, address] using heq
    exact absurd (hproxy i hw) (by rw [← ha, hv.2]; simp)
  | .reference (.proxy i), .reference (.plain a), hv, hw, heq =>
    have ha : s.address (.proxy i) = a := by simpa [JsValue.map, address] using heq
    exact absurd (hproxy i hv) (by rw [ha, hw.2]; simp)
  | .reference (.proxy i), .reference (.proxy j), hv, hw, heq =>
    have hi : i < s.proxies.length := hv
    have hj : j < s.proxies.length := hw
    have ha : s.address (.proxy i) = s.address (.proxy j) := by simpa [JsValue.map] using heq
    rw [address_proxy (List.getElem?_eq_getElem hi),
      address_proxy (List.getElem?_eq_getElem hj)] at ha
    have hij : i = j := by
      apply (List.getElem?_inj (by simpa using hi) h.targets).mp
      rw [List.getElem?_map, List.getElem?_map, List.getElem?_eq_getElem hi,
        List.getElem?_eq_getElem hj, Option.map_some, Option.map_some, ha]
    rw [hij]

namespace Later

theorem refl : Later s t s t := ⟨le_rfl, le_rfl, fun _ _ => rfl, fun _ _ => rfl, fun _ _ _ => rfl⟩

theorem trans {s'' : Augmented.Heap} {t'' : Copy.Heap} (h : Later s t s' t')
    (h' : Later s' t' s'' t'') : Later s t s'' t'' := by
  refine ⟨h.objects.trans h'.objects, h.proxies.trans h'.proxies, fun a ha => ?_, fun i hi => ?_,
    fun a ha hcopied => ?_⟩
  · rw [h'.copied a (ha.trans_le h.objects), h.copied a ha]
  · rw [h'.targets i (hi.trans_le h.proxies), h.targets i hi]
  · rw [h'.base a (ha.trans_le h.objects) (by rw [h.copied a ha, hcopied]), h.base a ha hcopied]

theorem allowed (h : Later s t s' t') {part : Bool} (hv : Allowed s t part v) :
    Allowed s' t' part v := by
  match v, hv with
  | .primitive _, _ => trivial
  | .builtin _ _, _ => trivial
  | .reference (.plain a), hv => exact ⟨hv.1.trans_le h.objects, (h.copied a hv.1).trans hv.2⟩
  | .reference (.proxy i), hv => exact lt_of_lt_of_le hv h.proxies

theorem allowedIn (h : Later s t s' t') {p : Proxy} (hp : AllowedIn s t p) : AllowedIn s' t' p := by
  match p, hp with
  | .object _ _ _, ⟨hdeleted, hnew⟩ =>
    exact ⟨hdeleted, fun key value hget => h.allowed (hnew key value hget)⟩
  | .array _ _, hnew =>
    exact fun data hd => ⟨(hnew data hd).1, fun key value hget =>
      h.allowed ((hnew data hd).2 key value hget)⟩

/-- The object behind a value that was allowed stays. -/
theorem map_address (h : Later s t s' t') {part : Bool} (hv : Allowed s t part v) :
    v.map s'.address = v.map s.address := by
  match v, hv with
  | .primitive _, _ => rfl
  | .builtin _ _, _ => rfl
  | .reference (.plain a), _ => rfl
  | .reference (.proxy i), hv => simp only [JsValue.map, address, h.targets i hv]

end Later

theorem allowedIn_fresh {objects : List (JsObject Ref)} {a : ℕ} :
    AllowedIn s t (Proxy.fresh objects a) := by
  unfold Proxy.fresh
  split_ifs
  · intro data hd
    cases hd
  · refine ⟨?_, ?_⟩
    · intro key hkey
      cases hkey
    · intro key value hget
      cases hget

/-- What shows in an object is allowed somewhere. -/
theorem Simulates.allowed_view (h : Simulates s t) {a : ℕ} (ha : a < s.objects.length)
    {key : String} (hv : (s.view a).get? key = some v) :
    ∃ part, Allowed s t part v := by
  by_cases hp : ∃ p ∈ s.proxies, p.target = a
  · obtain ⟨p, hp, rfl⟩ := hp
    rw [view_of_proxy h.targets hp] at hv
    have hallowed := (h.proxies p hp).allowed
    match p, hallowed, hv with
    | .object target newData deleted, hallowed, hv =>
      simp only [Proxy.view] at hv
      split_ifs at hv
      cases hnew : newData.get? key with
      | some w =>
        rw [hnew, Option.some_or] at hv
        obtain rfl := Option.some.inj hv
        exact ⟨_, hallowed.2 key w hnew⟩
      | none =>
        rw [hnew, Option.none_or] at hv
        exact ⟨_, h.objects _ ha key v hv⟩
    | .array target newData, hallowed, hv =>
      cases newData with
      | none => exact ⟨_, h.objects _ ha key v hv⟩
      | some data => exact ⟨_, (hallowed data rfl).2 key v hv⟩
  · push Not at hp
    rw [view_of_unproxied hp] at hv
    exact ⟨_, h.objects a ha key v hv⟩

/-- What shows refers to the same objects later. -/
theorem Simulates.map_view_later (h : Simulates s t) (hlater : Later s t s' t') {a : ℕ}
    (ha : a < s.objects.length) : (s.view a).map s'.address = (s.view a).map s.address := by
  refine View.map_congr fun key v hv => ?_
  obtain ⟨part, hpart⟩ := h.allowed_view ha hv
  exact hlater.map_address hpart

end Lemmas

/-! ## Changing a proxy -/

section Change

variable {s : Augmented.Heap} {t t' : Copy.Heap} {i : ℕ} {p p' : Proxy} {extra : List ℕ}

/-- The heap after proxies of the objects `extra` were made and the proxy at `i` was changed. -/
def Augmented.Heap.changed (s : Augmented.Heap) (extra : List ℕ) (i : ℕ) (p' : Proxy) :
    Augmented.Heap :=
  ⟨s.objects, (s.proxies ++ extra.map (Proxy.fresh s.objects)).set i p'⟩

/-- The objects `extra` are parts of the copy that have no proxies. -/
structure Unproxied (s : Augmented.Heap) (t : Copy.Heap) (extra : List ℕ) : Prop where
  nodup : extra.Nodup
  lt : ∀ b ∈ extra, b < s.objects.length
  copied : ∀ b ∈ extra, t.copied b
  unproxied : ∀ b ∈ extra, ∀ q ∈ s.proxies, q.target ≠ b

theorem Unproxied.nil : Unproxied s t [] :=
  ⟨List.nodup_nil, by simp, by simp, by simp⟩

theorem mem_changed {q : Proxy} (hq : q ∈ (s.changed extra i p').proxies) :
    q = p' ∨ q ∈ s.proxies ∨ ∃ b ∈ extra, q = Proxy.fresh s.objects b := by
  rcases List.mem_or_eq_of_mem_set hq with hq | rfl
  · rcases List.mem_append.mp hq with hq | hq
    · exact .inr (.inl hq)
    · obtain ⟨b, hb, rfl⟩ := List.mem_map.mp hq
      exact .inr (.inr ⟨b, hb, rfl⟩)
  · exact .inl rfl

variable (hi : s.proxies[i]? = some p) (htarget : p'.target = p.target)
include hi

theorem mem_changed_self : p' ∈ (s.changed extra i p').proxies := by
  have hlt : i < s.proxies.length := (List.getElem?_eq_some_iff.mp hi).1
  apply List.mem_set
  rw [List.length_append]
  omega

/-- Other proxies stay. -/
theorem mem_changed_of_ne {q : Proxy} (hq : q ∈ s.proxies ∨ ∃ b ∈ extra, q = Proxy.fresh s.objects b)
    (hne : q.target ≠ p.target) : q ∈ (s.changed extra i p').proxies := by
  have hmem : q ∈ s.proxies ++ extra.map (Proxy.fresh s.objects) := by
    rcases hq with hq | ⟨b, hb, rfl⟩
    · exact List.mem_append_left _ hq
    · exact List.mem_append_right _ (List.mem_map_of_mem hb)
  have hlt : i < s.proxies.length := (List.getElem?_eq_some_iff.mp hi).1
  obtain ⟨j, hj⟩ := List.mem_iff_getElem?.mp hmem
  have hij : i ≠ j := by
    rintro rfl
    rw [List.getElem?_append_left hlt, hi] at hj
    cases hj
    exact hne rfl
  exact List.mem_iff_getElem?.mpr ⟨j, by rw [changed, List.getElem?_set_ne hij, hj]⟩

include htarget

theorem targets_changed : (s.changed extra i p').proxies.map Proxy.target =
    s.proxies.map Proxy.target ++ extra := by
  have hlt : i < s.proxies.length := (List.getElem?_eq_some_iff.mp hi).1
  rw [changed, List.map_set, List.map_append, List.map_map]
  have hid : extra.map (Proxy.target ∘ Proxy.fresh s.objects) = extra := by
    refine (List.map_congr_left fun b _ => ?_).trans (List.map_id extra)
    exact Proxy.target_fresh
  rw [hid]
  apply List.ext_getElem?
  intro j
  by_cases hj : i = j
  · subst hj
    rw [List.getElem?_set_self (by simp; omega), htarget,
      List.getElem?_append_left (by simpa using hlt), List.getElem?_map, hi, Option.map_some]
  · rw [List.getElem?_set_ne hj]

theorem nodup_changed (h : Simulates s t) (hextra : Unproxied s t extra) :
    ((s.changed extra i p').proxies.map Proxy.target).Nodup := by
  rw [targets_changed hi htarget]
  refine h.targets.append hextra.nodup fun b hb hb' => ?_
  obtain ⟨q, hq, rfl⟩ := List.mem_map.mp hb
  exact hextra.unproxied _ hb' q hq rfl

/-- Only the object of the changed proxy shows in another way. -/
theorem view_changed (h : Simulates s t) (hextra : Unproxied s t extra) (a : ℕ) :
    (s.changed extra i p').view a =
      if a = p.target then p'.view (objectAt s.objects p.target) else s.view a := by
  have hnodup := @nodup_changed s t i p p' extra hi htarget h hextra
  split_ifs with ha
  · subst ha
    rw [← htarget]
    exact view_of_proxy hnodup (mem_changed_self hi)
  · by_cases hproxy : ∃ q ∈ s.proxies, q.target = a
    · obtain ⟨q, hq, rfl⟩ := hproxy
      rw [view_of_proxy h.targets hq]
      exact view_of_proxy hnodup (mem_changed_of_ne hi (.inl hq) ha)
    · push Not at hproxy
      rw [view_of_unproxied hproxy]
      by_cases hnew : a ∈ extra
      · have htar : (Proxy.fresh s.objects a).target ≠ p.target := by rwa [Proxy.target_fresh]
        have := view_of_proxy hnodup
          (mem_changed_of_ne hi (.inr ⟨a, hnew, rfl⟩) htar)
        rwa [Proxy.target_fresh, changed, Proxy.view_fresh] at this
      · refine view_of_unproxied fun q hq => ?_
        rcases mem_changed hq with rfl | hq | ⟨b, hb, rfl⟩
        · rw [htarget]
          exact fun hne => ha hne.symm
        · exact hproxy q hq
        · rw [Proxy.target_fresh]
          rintro rfl
          exact hnew hb

theorem later_changed (hcopied : t'.copied = t.copied) :
    Later s t (s.changed extra i p') t' := by
  refine ⟨le_rfl, by simp [changed], fun _ _ => by rw [hcopied], fun j hj => ?_,
    fun _ _ _ => rfl⟩
  have htargets : (s.changed extra i p').proxies.map Proxy.target =
      s.proxies.map Proxy.target ++ extra := targets_changed hi htarget
  have hmap := congrArg (·[j]?) htargets
  simp only [List.getElem?_map] at hmap
  rw [hmap, List.getElem?_append_left (by simpa using hj), List.getElem?_map]

/-- **A change** of what one proxy keeps, with new proxies made for objects that are not under a
property any more. -/
theorem Simulates.change (h : Simulates s t) (hextra : Unproxied s t extra)
    (hkind : p'.isArray = p.isArray) (hallowed : AllowedIn (s.changed extra i p') t' p')
    (hcopied : t'.copied = t.copied) (hlength : t'.objects.length = t.objects.length)
    (hothers : ∀ a, a ≠ p.target → objectAt t'.objects a = objectAt t.objects a)
    (hview : (objectAt t'.objects p.target).view =
      (p'.view (objectAt s.objects p.target)).map (s.changed extra i p').address)
    (hslots : ∀ key b, (p'.view (objectAt s.objects p.target)).get? key =
      some (.reference (.plain b)) → t.copied b → Under s t p.target key b ∧ b ∉ extra)
    (hrest : ∀ a key b, a ≠ p.target → Under s t a key b → b ∉ extra) :
    Simulates (s.changed extra i p') t' := by
  have hp := h.proxies p (List.mem_of_getElem? hi)
  have hviews := @view_changed s t i p p' extra hi htarget h hextra
  have hlater : Later s t (s.changed extra i p') t' := later_changed hi htarget hcopied
  -- what is under a property now was there before, and got no proxy
  have hunder : ∀ a key b, Under (s.changed extra i p') t' a key b →
      Under s t a key b ∧ b ∉ extra := by
    rintro a key b ⟨ha, hget, hb⟩
    rw [hcopied] at hb
    rw [hviews] at hget
    split_ifs at hget with heq
    · subst heq
      exact hslots key b hget hb
    · exact ⟨⟨ha, hget, hb⟩, hrest a key b heq ⟨ha, hget, hb⟩⟩
  refine ⟨hlength.trans h.length, nodup_changed hi htarget h hextra, ?_, ?_, ?_, ?_, ?_⟩
  · intro q hq
    rcases mem_changed hq with rfl | hq | ⟨b, hb, rfl⟩
    · exact ⟨htarget ▸ hp.lt, by rw [hcopied, htarget]; exact hp.copied,
        by rw [hkind, hp.isArray, htarget]; rfl, hallowed⟩
    · have hold := h.proxies q hq
      exact ⟨hold.lt, by rw [hcopied]; exact hold.copied, hold.isArray,
        hlater.allowedIn hold.allowed⟩
    · refine ⟨by rw [Proxy.target_fresh]; exact hextra.lt b hb,
        by rw [hcopied, Proxy.target_fresh]; exact hextra.copied b hb,
        by rw [Proxy.isArray_fresh, Proxy.target_fresh]; rfl, ?_⟩
      exact allowedIn_fresh
  · intro a ha
    rw [hviews]
    split_ifs with heq
    · rw [heq, hview]
    · rw [hothers a heq, h.views a ha, h.map_view_later hlater ha]
  · intro a ha key value hget
    rw [hcopied]
    exact hlater.allowed (h.objects a ha key value hget)
  · intro a key b hb q hq
    obtain ⟨hold, hnew⟩ := hunder a key b hb
    rcases mem_changed hq with rfl | hq | ⟨c, hc, rfl⟩
    · rw [htarget]
      exact h.unproxied a key b hold p (List.mem_of_getElem? hi)
    · exact h.unproxied a key b hold q hq
    · rw [Proxy.target_fresh]
      rintro rfl
      exact hnew hc
  · intro a key a' key' b hb hb'
    exact h.once a key a' key' b (hunder a key b hb).1 (hunder a' key' b hb').1

end Change

/-! ## Objects that keep to themselves -/

section Raw

variable {s : Augmented.Heap} {t : Copy.Heap}

theorem objectAt_set {ρ : Type} {objects : List (JsObject ρ)} {a b : ℕ} {o : JsObject ρ}
    (ha : a < objects.length) :
    objectAt (objects.set a o) b = if b = a then o else objectAt objects b := by
  split_ifs with h
  · subst h
    rw [objectAt, List.getElem?_set_self ha]
    rfl
  · rw [objectAt, List.getElem?_set_ne (Ne.symm h)]
    rfl

theorem view_congr {s' : Augmented.Heap} {a : ℕ} (hproxies : s'.proxies = s.proxies)
    (hobject : objectAt s'.objects a = objectAt s.objects a) : s'.view a = s.view a := by
  rw [view, hproxies, hobject, view]

theorem later_setObject {a : ℕ} {o : JsObject Ref} {o' : JsObject ℕ} (hraw : t.copied a = false) :
    Later s t (s.setObject a o) (t.setObject a o') := by
  refine ⟨List.length_set.ge, le_rfl, fun _ _ => rfl, fun _ _ => rfl, fun b _ hb => ?_⟩
  have hne : a ≠ b := by
    rintro rfl
    rw [hraw] at hb
    cases hb
  exact List.getElem?_set_ne hne

/-- What keeps to itself is changed in both heaps. -/
theorem Simulates.setObject (h : Simulates s t) {a : ℕ} {o : JsObject Ref} {o' : JsObject ℕ}
    (ha : a < s.objects.length) (hraw : t.copied a = false)
    (hview : o'.view = o.view.map s.address)
    (hallowed : ∀ key value, o.props.get? key = some value → Allowed s t false value) :
    Simulates (s.setObject a o) (t.setObject a o') := by
  have hlength : (s.setObject a o).objects.length = s.objects.length := List.length_set
  have hat : ∀ b, objectAt (s.setObject a o).objects b =
      if b = a then o else objectAt s.objects b := fun b => objectAt_set ha
  have hat' : ∀ b, objectAt (t.setObject a o').objects b =
      if b = a then o' else objectAt t.objects b := fun b => objectAt_set (h.length ▸ ha)
  have hfree : ∀ q ∈ s.proxies, q.target ≠ a := by
    rintro q hq rfl
    rw [(h.proxies q hq).copied] at hraw
    cases hraw
  have hself : (s.setObject a o).view a = o.view := by
    have hview := @Augmented.Heap.view_of_unproxied (s.setObject a o) a hfree
    rwa [hat, if_pos rfl] at hview
  have hother : ∀ b, b ≠ a → (s.setObject a o).view b = s.view b :=
    fun b hb => view_congr rfl (by rw [hat, if_neg hb])
  have hlater : Later s t (s.setObject a o) (t.setObject a o') := later_setObject hraw
  have hunder : ∀ b key c, Under (s.setObject a o) (t.setObject a o') b key c →
      Under s t b key c := by
    rintro b key c ⟨hb, hget, hc⟩
    have hne : b ≠ a := by
      rintro rfl
      rw [hself] at hget
      have hraw' := (hallowed key _ hget).2
      rw [show t.copied c = true from hc] at hraw'
      cases hraw'
    rw [hother b hne] at hget
    exact ⟨hlength ▸ hb, hget, hc⟩
  refine ⟨by rw [hlength, Copy.Heap.setObject, List.length_set, h.length], h.targets, ?_, ?_, ?_,
    ?_, ?_⟩
  · intro q hq
    have hold := h.proxies q hq
    refine ⟨hlength ▸ hold.lt, hold.copied, ?_, hlater.allowedIn hold.allowed⟩
    rw [hat, if_neg (hfree q hq), hold.isArray]
  · intro b hb
    by_cases hba : b = a
    · subst hba
      rw [hself, hat', if_pos rfl, hview]
      rfl
    · rw [hother b hba, hat', if_neg hba, h.views b (hlength ▸ hb)]
      rfl
  · intro b hb key value hget
    rw [hat] at hget
    split_ifs at hget with hba
    · subst hba
      rw [show (t.setObject b o').copied b = false from hraw]
      exact hlater.allowed (hallowed key value hget)
    · exact hlater.allowed (h.objects b (hlength ▸ hb) key value hget)
  · intro b key c hc
    exact h.unproxied b key c (hunder b key c hc)
  · intro b key b' key' c hc hc'
    exact h.once b key b' key' c (hunder b key c hc) (hunder b' key' c hc')

end Raw

/-! ## New objects and a new proxy -/

section New

variable {s : Augmented.Heap} {t : Copy.Heap} {α : Type} {held : α → Augmented.Value} {ρ : Type}

/-- The objects of data are made. -/
def Augmented.Heap.created (s : Augmented.Heap) (held : α → Augmented.Value) (data : Data α) :
    Augmented.Heap :=
  { s with objects := (alloc Ref.plain held s.objects data).1 }

def Copy.Heap.created (t : Copy.Heap) (held : α → Copy.Value) (part : Bool) (data : Data α) :
    Copy.Heap :=
  ⟨(alloc id held t.objects data).1, fun a => if a < t.objects.length then t.copied a else part⟩

/-- What new data is: something held, or the root of a new tree. -/
structure Root (s : Augmented.Heap) (t : Copy.Heap) (part : Bool) (v : Augmented.Value) :
    Prop where
  allowed : Allowed s t part v
  unproxied : ∀ b, v = .reference (.plain b) → t.copied b → Unproxied s t [b]
  free : ∀ b, v = .reference (.plain b) → t.copied b → ∀ a key, ¬ Under s t a key b

theorem objectAt_of_getElem? {objects : List (JsObject ρ)} {a : ℕ} {o : JsObject ρ}
    (h : objects[a]? = some o) : objectAt objects a = o := by
  rw [objectAt, h, Option.getD_some]

theorem objectAt_append {objects new : List (JsObject ρ)} {a : ℕ} (ha : a < objects.length) :
    objectAt (objects ++ new) a = objectAt objects a := by
  rw [objectAt, List.getElem?_append_left ha, objectAt]

/-- A property of what is stored in an object that has an address. -/
theorem slot_of_get? {objects : List (JsObject ρ)} {a : ℕ} {key : String} {value : JsValue ρ}
    (ha : a < objects.length) (h : (objectAt objects a).props.get? key = some value) :
    Slot objects a key value := by
  refine ⟨objects[a], List.getElem?_eq_getElem ha, ?_⟩
  rwa [objectAt_of_getElem? (List.getElem?_eq_getElem ha)] at h

/-- **New objects** stay with the copy or do not, and what is held stays as it is. -/
theorem Simulates.create (h : Simulates s t) (hheld : ∀ a, Allowed s t false (held a))
    {part : Bool} {data : Data α}
    (hpart : part → ∀ a ∈ handles data, ∀ b, held a ≠ .reference (.plain b)) :
    Simulates (s.created held data) (t.created (fun a => (held a).map s.address) part data) ∧
      Later s t (s.created held data) (t.created (fun a => (held a).map s.address) part data) ∧
      Root (s.created held data) (t.created (fun a => (held a).map s.address) part data) part
        (alloc Ref.plain held s.objects data).2 ∧
      (alloc id (fun a => (held a).map s.address) t.objects data).2 =
        (alloc Ref.plain held s.objects data).2.map s.address := by
  obtain ⟨new, new', hnew, hnew', hall, hvalue⟩ :=
    @alloc_map _ _ _ s.address Ref.plain held s.objects t.objects h.length.symm data
  obtain ⟨parent, -, htree, hroot⟩ := @alloc_tree _ _ Ref.plain held s.objects data
  have hid : s.address ∘ Ref.plain = id := rfl
  rw [hid] at hnew' hvalue
  set s' := s.created held data with hs'
  set t' := t.created (fun a => (held a).map s.address) part data with ht'
  have hobjects : s'.objects = s.objects ++ new := hnew
  have hobjects' : t'.objects = t.objects ++ new' := hnew'
  have hlength : s'.objects.length = s.objects.length + new.length := by
    rw [hobjects, List.length_append]
  have hold : ∀ a < s.objects.length, t'.copied a = t.copied a :=
    fun a ha => if_pos (h.length ▸ ha)
  have hfresh : ∀ a, s.objects.length ≤ a → t'.copied a = part :=
    fun a ha => if_neg (h.length ▸ not_lt.mpr ha)
  have hlater : Later s t s' t' := by
    refine ⟨by omega, le_rfl, hold, fun _ _ => rfl, fun a ha _ => ?_⟩
    rw [hobjects, List.getElem?_append_left ha]
  -- what is held is part of the copy where that is asked for
  have hpartial : ∀ a ∈ handles data, Allowed s' t' part (held a) := by
    intro a ha
    have hallowed := hlater.allowed (hheld a)
    cases part with
    | false => exact hallowed
    | true =>
      match hv : held a, hallowed with
      | .primitive _, _ => trivial
      | .builtin _ _, _ => trivial
      | .reference (.proxy _), hallowed => exact hallowed
      | .reference (.plain b), _ => exact absurd hv (hpart rfl a ha b)
  -- what is held is no part of the copy without a proxy
  have hheld' : ∀ a ∈ handles data, ∀ b, held a = .reference (.plain b) → ¬ t'.copied b := by
    intro a ha b hv hb
    have hallowed := hlater.allowed (hheld a)
    rw [hv] at hallowed
    rw [hallowed.2] at hb
    cases hb
  have hviewOld : ∀ a < s.objects.length, s'.view a = s.view a := fun a ha =>
    view_congr rfl (by rw [hobjects, objectAt_append ha])
  have hviewNew : ∀ a, s.objects.length ≤ a → s'.view a = (objectAt s'.objects a).view := by
    intro a ha
    refine view_of_unproxied fun p hp hne => ?_
    have := (h.proxies p hp).lt
    omega
  have hslot : ∀ a key v, s.objects.length ≤ a → a < s'.objects.length →
      (objectAt s'.objects a).props.get? key = some v →
      NewSlot Ref.plain held (handles data) s.objects.length parent (some a) a key v :=
    fun a key v hle ha hget => htree a key v hle (slot_of_get? ha hget)
  -- a part of the copy without a proxy is where it was, or it is new and so is what it is under
  have hunder : ∀ a key b, Under s' t' a key b →
      (b < s.objects.length ∧ Under s t a key b) ∨
        (s.objects.length ≤ b ∧ b < a ∧ parent b = (some a, key)) := by
    rintro a key b ⟨ha, hget, hb⟩
    by_cases hlt : a < s.objects.length
    · rw [hviewOld a hlt] at hget
      obtain ⟨part', hallowed⟩ := h.allowed_view hlt hget
      have hblt : b < s.objects.length := hallowed.1
      exact .inl ⟨hblt, hlt, hget, by rwa [hold b hblt] at hb⟩
    · have hle := not_lt.mp hlt
      rw [hviewNew a hle] at hget
      rcases hslot a key _ hle ha hget with ⟨p, hv⟩ | ⟨c, hc, hv⟩ | ⟨c, hv, hfirst, hbelow, hparent⟩
      · cases hv
      · exact absurd hb (hheld' c hc b hv.symm)
      · obtain rfl : b = c := by simpa using hv
        exact .inr ⟨hfirst, hbelow, hparent⟩
  refine ⟨⟨?_, h.targets, ?_, ?_, ?_, ?_, ?_⟩, hlater, ⟨?_, ?_, ?_⟩, hvalue⟩
  · rw [hobjects', hlength, List.length_append, h.length, hall.length_eq]
  · intro p hp
    have hproxy := h.proxies p hp
    refine ⟨hproxy.lt.trans_le hlater.objects, by rw [hold _ hproxy.lt]; exact hproxy.copied, ?_,
      hlater.allowedIn hproxy.allowed⟩
    rw [hobjects, objectAt_append hproxy.lt, hproxy.isArray]
  · intro a ha
    by_cases hlt : a < s.objects.length
    · rw [hviewOld a hlt, hobjects', objectAt_append (h.length ▸ hlt), h.views a hlt]
      rfl
    · have hle := not_lt.mp hlt
      rw [hviewNew a hle]
      have hidx : a - s.objects.length < new.length := by omega
      have hidx' : a - s.objects.length < new'.length := hall.length_eq ▸ hidx
      have hrenamed := List.Forall₂.get hall hidx hidx'
      have hat : objectAt s'.objects a = new[a - s.objects.length] := by
        apply objectAt_of_getElem?
        rw [hobjects, List.getElem?_append_right hle, List.getElem?_eq_getElem hidx]
      have hat' : objectAt t'.objects a = new'[a - s.objects.length] := by
        apply objectAt_of_getElem?
        rw [hobjects', List.getElem?_append_right (h.length ▸ hle), h.length,
          List.getElem?_eq_getElem hidx']
      rw [hat, hat']
      exact hrenamed
  · intro a ha key v hget
    by_cases hlt : a < s.objects.length
    · rw [hobjects, objectAt_append hlt] at hget
      rw [hold a hlt]
      exact hlater.allowed (h.objects a hlt key v hget)
    · have hle := not_lt.mp hlt
      rw [hfresh a hle]
      rcases hslot a key v hle ha hget with ⟨p, rfl⟩ | ⟨c, hc, rfl⟩ | ⟨c, rfl, hfirst, hbelow, -⟩
      · trivial
      · exact hpartial c hc
      · exact ⟨hbelow.trans ha, hfresh c hfirst⟩
  · intro a key b hb p hp hne
    rcases hunder a key b hb with ⟨-, hb⟩ | ⟨hfirst, -, -⟩
    · exact h.unproxied a key b hb p hp hne
    · have := (h.proxies p hp).lt
      omega
  · intro a key a' key' b hb hb'
    rcases hunder a key b hb with ⟨hblt, hb⟩ | ⟨hfirst, -, hparent⟩
    · rcases hunder a' key' b hb' with ⟨-, hb'⟩ | ⟨hfirst, -, -⟩
      · exact h.once a key a' key' b hb hb'
      · omega
    · rcases hunder a' key' b hb' with ⟨hblt, -⟩ | ⟨-, -, hparent'⟩
      · omega
      · rw [hparent, Prod.mk.injEq, Option.some.injEq] at hparent'
        exact hparent'
  · rcases hroot with ⟨p, hv⟩ | ⟨c, hc, hv⟩ | ⟨c, hv, hfirst, hlast⟩
    · rw [hv]
      trivial
    · rw [hv]
      exact hpartial c hc
    · rw [hv]
      exact ⟨hlast ▸ Nat.lt_succ_self c, hfresh c hfirst⟩
  · intro b hv hb
    rcases hroot with ⟨p, hv'⟩ | ⟨c, hc, hv'⟩ | ⟨c, hv', hfirst, hlast⟩
    · rw [hv'] at hv
      cases hv
    · exact absurd hb (hheld' c hc b (hv' ▸ hv))
    · rw [hv'] at hv
      obtain rfl : c = b := by simpa using hv
      refine ⟨List.nodup_singleton c, ?_, ?_, ?_⟩
      · exact List.forall_mem_singleton.mpr (hlast ▸ Nat.lt_succ_self c)
      · exact List.forall_mem_singleton.mpr hb
      · refine List.forall_mem_singleton.mpr fun p hp hne => ?_
        have := (h.proxies p hp).lt
        omega
  · intro b hv hb a key hunder'
    rcases hroot with ⟨p, hv'⟩ | ⟨c, hc, hv'⟩ | ⟨c, hv', hfirst, hlast⟩
    · rw [hv'] at hv
      cases hv
    · exact absurd hb (hheld' c hc b (hv' ▸ hv))
    · rw [hv'] at hv
      obtain rfl : c = b := by simpa using hv
      have ha : a < s'.objects.length := hunder'.1
      have hlast' : c + 1 = s'.objects.length := hlast
      rcases hunder a key c hunder' with ⟨hlt, -⟩ | ⟨-, hlt, -⟩
      · omega
      · omega

/-- **A new proxy** for an object that is under nothing. -/
theorem Simulates.push (h : Simulates s t) {b : ℕ} (hb : Unproxied s t [b])
    (hfree : ∀ a key, ¬ Under s t a key b) :
    Simulates ⟨s.objects, s.proxies ++ [Proxy.fresh s.objects b]⟩ t := by
  set s' : Augmented.Heap := ⟨s.objects, s.proxies ++ [Proxy.fresh s.objects b]⟩
  have hlt : b < s.objects.length := hb.lt b (List.mem_singleton_self b)
  have hcopied : t.copied b := hb.copied b (List.mem_singleton_self b)
  have hnone : ∀ p ∈ s.proxies, p.target ≠ b := hb.unproxied b (List.mem_singleton_self b)
  have hlater : Later s t s' t := by
    refine ⟨le_rfl, by simp [s'], fun _ _ => rfl, fun i hi => ?_, fun _ _ _ => rfl⟩
    rw [List.getElem?_append_left hi]
  have hview : ∀ a, s'.view a = s.view a := by
    intro a
    rw [view, List.find?_append, view]
    cases hfind : s.proxies.find? fun p => p.target = a with
    | some p => rfl
    | none =>
      rw [Option.none_or]
      by_cases hab : b = a
      · subst hab
        simp [s']
      · simp [hab, s']
  have hunder : ∀ a key c, Under s' t a key c → Under s t a key c := by
    rintro a key c ⟨ha, hget, hc⟩
    exact ⟨ha, hview a ▸ hget, hc⟩
  refine ⟨h.length, ?_, ?_, ?_, ?_, ?_, ?_⟩
  · rw [List.map_append, List.map_singleton, Proxy.target_fresh]
    refine h.targets.append (List.nodup_singleton b) ?_
    rw [List.disjoint_singleton]
    intro hmem
    obtain ⟨p, hp, hp'⟩ := List.mem_map.mp hmem
    exact hnone p hp hp'
  · intro p hp
    rcases List.mem_append.mp hp with hp | hp
    · have hold := h.proxies p hp
      exact ⟨hold.lt, hold.copied, hold.isArray, hlater.allowedIn hold.allowed⟩
    · rw [List.mem_singleton.mp hp]
      refine ⟨?_, ?_, ?_, allowedIn_fresh⟩
      · rwa [Proxy.target_fresh]
      · rwa [Proxy.target_fresh]
      · rw [Proxy.isArray_fresh, Proxy.target_fresh]
  · intro a ha
    rw [h.views a ha, hview, h.map_view_later hlater ha]
  · exact fun a ha key value hget => hlater.allowed (h.objects a ha key value hget)
  · intro a key c hc p hp
    rcases List.mem_append.mp hp with hp | hp
    · exact h.unproxied a key c (hunder a key c hc) p hp
    · rw [List.mem_singleton.mp hp, Proxy.target_fresh]
      rintro rfl
      exact hfree a key (hunder a key b hc)
  · intro a key a' key' c hc hc'
    exact h.once a key a' key' c (hunder a key c hc) (hunder a' key' c hc')

end New

end N8n.DataProxy
