import N8n.ExpressionRuntime.Transfer

/-!
# The round trip of transferred results

The host gets the value back whose luxon values, reached through arrays and plain objects, are
instances again. All objects that the host walks were made by the guest's walk, so that no object
is taken for one that was visited, and only markers of the guest look like markers.

## Main definitions

* `Value.erase`: a value without the identities of its objects
* `Value.received`: what the host gets back
* `Value.NoProtoKey`: no plain object that is walked has a field `__proto__`

## Main results

* `unwrapTransferSentinels_prepareForTransfer`: the host gets back what was sent
* `not_rebuilt`: luxon values inside built-ins are not rebuilt, and a field `__proto__` is lost
-/

namespace N8n.ExpressionRuntime.Transfer

variable {P B : Type} {flatten : Luxon P → ℕ × Fields P B} {decode : Value P B → Value P B}

/-! ## Equality of results -/

mutual

/-- The value without the identities of its objects. -/
def Value.erase : Value P B → Value P B
  | .array _ items => .array 0 items.erase
  | .plain _ fields => .plain 0 fields.erase
  | .builtin _ kind contents => .builtin 0 kind contents.erase
  | .inst _ fields => .inst 0 fields.erase
  | .undefined => .undefined
  | .null => .null
  | .boolean b => .boolean b
  | .string s => .string s
  | .other p => .other p
  | .luxon value => .luxon value

def Items.erase : Items P B → Items P B
  | .nil => .nil
  | .hole rest => .hole rest.erase
  | .item value rest => .item value.erase rest.erase

def Fields.erase : Fields P B → Fields P B
  | .nil => .nil
  | .cons key value rest => .cons key value.erase rest.erase

end

/-! ## What is promised -/

section Received

variable (flatten : Luxon P → ℕ × Fields P B)

mutual

/-- What the host gets back: arrays and plain objects with what they hold, luxon values as
instances, and built-ins and instances as structured clone copies them. -/
def Value.received : Value P B → Value P B
  | .array id items => .array id items.received
  | .plain id fields => .plain id fields.received
  | .builtin id kind contents => .builtin id kind (contents.clone flatten)
  | .inst id fields => .plain id (fields.clone flatten)
  | .undefined => .undefined
  | .null => .null
  | .boolean b => .boolean b
  | .string s => .string s
  | .other p => .other p
  | .luxon value => .luxon value

def Items.received : Items P B → Items P B
  | .nil => .nil
  | .hole rest => .hole rest.received
  | .item value rest => .item value.received rest.received

def Fields.received : Fields P B → Fields P B
  | .nil => .nil
  | .cons key value rest => .cons key value.received rest.received

end

end Received

mutual

/-- The value with the luxon values rebuilt at every depth, and the other instances as plain
objects. -/
def Value.rebuilt : Value P B → Value P B
  | .array id items => .array id items.rebuilt
  | .plain id fields => .plain id fields.rebuilt
  | .builtin id kind contents => .builtin id kind contents.rebuilt
  | .inst id fields => .plain id fields.rebuilt
  | .undefined => .undefined
  | .null => .null
  | .boolean b => .boolean b
  | .string s => .string s
  | .other p => .other p
  | .luxon value => .luxon value

def Items.rebuilt : Items P B → Items P B
  | .nil => .nil
  | .hole rest => .hole rest.rebuilt
  | .item value rest => .item value.rebuilt rest.rebuilt

def Fields.rebuilt : Fields P B → Fields P B
  | .nil => .nil
  | .cons key value rest => .cons key value.rebuilt rest.rebuilt

end

mutual

/-- No plain object that is walked has a field `__proto__`. -/
def Value.NoProtoKey : Value P B → Prop
  | .array _ items => items.NoProtoKey
  | .plain _ fields => fields.NoProtoKey
  | .builtin _ _ _ | .inst _ _ | .undefined | .null | .boolean _ | .string _ | .other _
  | .luxon _ => True

def Items.NoProtoKey : Items P B → Prop
  | .nil => True
  | .hole rest => rest.NoProtoKey
  | .item value rest => value.NoProtoKey ∧ rest.NoProtoKey

def Fields.NoProtoKey : Fields P B → Prop
  | .nil => True
  | .cons key value rest => key ≠ "__proto__" ∧ value.NoProtoKey ∧ rest.NoProtoKey

end

/-- The decoder gives back the luxon value whose marker it gets, whatever the marker's objects
are. -/
def Inverts (decode : Value P B → Value P B) : Prop :=
  ∀ value n, decode (encodeLuxonValue value n).1 = .luxon value

/-! ## Keys -/

theorem Fields.assign_of_ne {key : String} (h : key ≠ "__proto__") (value : Value P B)
    (rest : Fields P B) : Fields.assign key value rest = .cons key value rest :=
  if_neg h

theorem Fields.keys_assign {key k : String} {value : Value P B} {rest : Fields P B}
    (h : k ∈ (Fields.assign key value rest).keys) : k = key ∨ k ∈ rest.keys := by
  unfold Fields.assign at h
  split at h
  · exact Or.inr h
  · exact List.mem_cons.mp h

theorem Fields.get_of_not_mem (fields : Fields P B) {k : String} (h : k ∉ fields.keys) :
    fields.get k = .undefined := by
  match fields with
  | .nil => rfl
  | .cons key value rest =>
    rw [Fields.keys, List.mem_cons, not_or] at h
    rw [Fields.get, if_neg (Ne.symm h.1)]
    exact rest.get_of_not_mem h.2

theorem Fields.keys_clone (fields : Fields P B) : (fields.clone flatten).keys = fields.keys := by
  match fields with
  | .nil => rfl
  | .cons key value rest => rw [Fields.clone, Fields.keys, Fields.keys, rest.keys_clone]

theorem keys_prepareFields (fields : Fields P B) (n : ℕ) {k : String}
    (h : k ∈ (prepareFields fields n).1.keys) : k ∈ fields.keys := by
  match fields with
  | .nil => exact h
  | .cons key value rest =>
    rcases Fields.keys_assign h with rfl | h
    · exact List.mem_cons_self
    · exact List.mem_cons_of_mem _ (keys_prepareFields rest _ h)

/-- Fields without framing keys are no marker and not escaped. -/
theorem not_framing {fields : Fields P B}
    (h : ∀ k ∈ TRANSFER_FRAMING_KEYS, k ∉ fields.keys) :
    isTransferSentinel fields = false ∧ isEscapedTransferValue fields = false := by
  have htype := fields.get_of_not_mem (h TRANSFER_TYPE_KEY (by decide))
  have hescaped := fields.get_of_not_mem (h TRANSFER_ESCAPED_KEY (by decide))
  constructor
  · rw [isTransferSentinel, htype]
  · rw [isEscapedTransferValue, Fields.flag, hescaped]

/-- Without a collision the walked fields do not look like framing, nor does their copy. -/
theorem not_framing_of_not_collides (flatten : Luxon P → ℕ × Fields P B)
    {fields : Fields P B} (n : ℕ)
    (h : fields.keys.any (TRANSFER_FRAMING_KEYS.contains ·) = false) :
    isTransferSentinel ((prepareFields fields n).1.clone flatten) = false ∧
      isEscapedTransferValue ((prepareFields fields n).1.clone flatten) = false := by
  refine not_framing fun k hk hmem => ?_
  rw [Fields.keys_clone] at hmem
  have := List.any_eq_false.mp h k (keys_prepareFields fields n hmem)
  exact this (List.contains_iff_mem.mpr hk)

/-! ## Markers -/

/-- A marker is one plain object with fields of its own, which structured clone leaves as it is. -/
theorem dateTimeToSentinel_clone (value : DateTime) :
    (dateTimeToSentinel value : Fields P B).clone flatten = dateTimeToSentinel value := by
  cases value with
  | valid isoString zone => cases zone <;> rfl
  | invalid reason explanation => cases explanation <;> rfl

theorem invalidSentinel_clone (type reason : String) (explanation : Option String) :
    (invalidSentinel type reason explanation : Fields P B).clone flatten =
      invalidSentinel type reason explanation := by
  cases explanation <;> rfl

theorem durationValues_clone (values : List (String × P)) :
    (durationValues values : Fields P B).clone flatten = durationValues values := by
  induction values with
  | nil => rfl
  | cons entry rest ih => rw [durationValues, Fields.clone, Value.clone, ih]

theorem encodeLuxonValue_clone (value : Luxon P) (n : ℕ) :
    ((encodeLuxonValue value n).1 : Value P B).clone flatten = (encodeLuxonValue value n).1 := by
  cases value with
  | dateTime value => simp only [encodeLuxonValue, Value.clone, dateTimeToSentinel_clone]
  | duration values =>
    simp only [encodeLuxonValue, Value.clone, Fields.clone, durationValues_clone]
  | invalidDuration reason explanation =>
    simp only [encodeLuxonValue, Value.clone, invalidSentinel_clone]
  | interval start stop =>
    simp only [encodeLuxonValue, Value.clone, Fields.clone, dateTimeToSentinel_clone]
  | invalidInterval reason explanation =>
    simp only [encodeLuxonValue, Value.clone, invalidSentinel_clone]

theorem encodeLuxonValue_eq (value : Luxon P) (n : ℕ) :
    ∃ fields : Fields P B, (encodeLuxonValue value n).1 = .plain n fields ∧
      isTransferSentinel fields = true := by
  cases value with
  | dateTime value => cases value <;> exact ⟨_, rfl, rfl⟩
  | duration values => exact ⟨_, rfl, rfl⟩
  | invalidDuration reason explanation => exact ⟨_, rfl, rfl⟩
  | interval start stop => exact ⟨_, rfl, rfl⟩
  | invalidInterval reason explanation => exact ⟨_, rfl, rfl⟩

theorem lt_encodeLuxonValue (value : Luxon P) (n : ℕ) :
    n < (encodeLuxonValue value n : Value P B × ℕ).2 := by
  cases value <;> simp only [encodeLuxonValue] <;> omega

/-! ## Fresh objects -/

theorem le_escapeCollision (collides : Bool) (id : ℕ) (walked : Fields P B × ℕ) :
    walked.2 ≤ (escapeCollision collides id walked).2 := by
  obtain ⟨result, n⟩ := walked
  cases collides with
  | true => exact Nat.le_succ n
  | false => exact le_refl n

mutual

theorem le_prepare (value : Value P B) (n : ℕ) : n ≤ (prepare value n).2 := by
  match value with
  | .array id items => exact (Nat.le_succ n).trans (le_prepareItems items (n + 1))
  | .plain id fields =>
    exact ((Nat.le_succ n).trans (le_prepareFields fields (n + 1))).trans
      (le_escapeCollision _ _ _)
  | .inst id fields => exact Nat.le_succ n
  | .luxon value => exact (lt_encodeLuxonValue value n).le
  | .undefined | .null | .boolean _ | .string _ | .other _ | .builtin _ _ _ => exact le_refl n

theorem le_prepareItems (items : Items P B) (n : ℕ) : n ≤ (prepareItems items n).2 := by
  match items with
  | .nil => exact le_refl n
  | .hole rest => exact le_prepareItems rest n
  | .item value rest => exact (le_prepare value n).trans (le_prepareItems rest _)

theorem le_prepareFields (fields : Fields P B) (n : ℕ) : n ≤ (prepareFields fields n).2 := by
  match fields with
  | .nil => exact le_refl n
  | .cons key value rest => exact (le_prepare value n).trans (le_prepareFields rest _)

end

/-- All visited objects are older than the fresh ones from `n` on. -/
def Seen.Below (n : ℕ) (seen : Seen P B) : Prop :=
  ∀ e ∈ seen, e.1 < n

theorem Seen.Below.mono {n m : ℕ} {seen : Seen P B} (h : seen.Below n) (hle : n ≤ m) :
    seen.Below m :=
  fun e he => (h e he).trans_le hle

/-- A fresh object is walked. -/
theorem Seen.Below.once {n id : ℕ} {seen : Seen P B} (h : seen.Below n) (hid : n ≤ id)
    (walk : Value P B × Seen P B) : seen.once id walk = walk := by
  have hnone : seen.lookup id = none := by
    rw [List.lookup_eq_none_iff]
    intro e he
    have := h e he
    simpa using fun heq : id = e.1 => by omega
  rw [Seen.once, hnone]

theorem Seen.Below.cons {n id : ℕ} {seen : Seen P B} {value : Value P B} (h : seen.Below n)
    (hid : id < n) : Seen.Below n ((id, value) :: seen) := by
  intro e he
  rcases List.mem_cons.mp he with rfl | he
  · exact hid
  · exact h e he

/-! ## The host's walk -/

/-- A wrapper of a plain object is taken off, and the object is walked as data. -/
theorem unwrapValue_escaped {id n : ℕ} {fields : Fields P B} {seen : Seen P B}
    (hseen : seen.Below id) :
    unwrapValue decode (escaped id (.plain n fields)) seen =
      recordPlain n (unwrapFields decode fields seen) := by
  simp only [escaped, unwrapValue]
  rw [hseen.once (le_refl id)]
  rfl

/-- An opaque payload is given back as it is. -/
theorem unwrapValue_opaqueValue {id : ℕ} {value : Value P B} {seen : Seen P B}
    (hseen : seen.Below id) :
    unwrapValue decode (opaqueValue id value) seen = (value, seen) := by
  simp only [opaqueValue, unwrapValue]
  rw [hseen.once (le_refl id)]
  rfl

theorem unwrapValue_marker (hdecode : Inverts decode) (value : Luxon P) {n : ℕ} {seen : Seen P B}
    (hseen : seen.Below n) :
    unwrapValue decode (encodeLuxonValue value n).1 seen = (.luxon value, seen) := by
  obtain ⟨fields, hfields, hsentinel⟩ := encodeLuxonValue_eq (B := B) value n
  have hvalue := hdecode value n
  rw [hfields] at hvalue ⊢
  simp only [unwrapValue]
  rw [hseen.once (le_refl n), if_pos hsentinel, hvalue]

/-- A plain object without framing is walked. -/
theorem unwrapValue_plain {id : ℕ} {fields : Fields P B} {seen : Seen P B}
    (hseen : seen.Below id) (htype : isTransferSentinel fields = false)
    (hescaped : isEscapedTransferValue fields = false) :
    unwrapValue decode (.plain id fields) seen =
      recordPlain id (unwrapFields decode fields seen) := by
  simp only [unwrapValue]
  rw [hseen.once (le_refl id), htype, hescaped]
  rfl

/-- What the host makes of the walked fields is recorded as one object, escaped or not. -/
theorem unwrapValue_escapeCollision {n : ℕ} {fields : Fields P B} {seen : Seen P B}
    (hseen : seen.Below n) :
    unwrapValue decode
        ((prepare (.plain 0 fields) n).1.clone flatten) seen =
      recordPlain n
        (unwrapFields decode ((prepareFields fields (n + 1)).1.clone flatten) seen) := by
  have hle := le_prepareFields fields (n + 1)
  simp only [prepare]
  -- The wrapper is younger than what it wraps.
  cases hcollides : fields.keys.any (TRANSFER_FRAMING_KEYS.contains ·) with
  | true => exact unwrapValue_escaped (hseen.mono (by omega))
  | false =>
    obtain ⟨htype, hescaped⟩ := not_framing_of_not_collides flatten (n + 1) hcollides
    exact unwrapValue_plain hseen htype hescaped

mutual

theorem unwrap_prepare (hdecode : Inverts decode) (value : Value P B) (hv : value.NoProtoKey)
    (n : ℕ) (seen : Seen P B) (hseen : seen.Below n) :
    (unwrapValue decode ((prepare value n).1.clone flatten) seen).1.erase =
        (value.received flatten).erase ∧
      (unwrapValue decode ((prepare value n).1.clone flatten) seen).2.Below
        (prepare value n).2 := by
  match value with
  | .array id items =>
    obtain ⟨hitems, hbelow⟩ := unwrap_prepareItems hdecode items hv (n + 1) seen
      (hseen.mono (Nat.le_succ n))
    simp only [prepare, Value.clone, unwrapValue]
    rw [hseen.once (le_refl n)]
    refine ⟨congrArg (Value.array 0) hitems, hbelow.cons ?_⟩
    exact le_prepareItems items (n + 1)
  | .plain id fields =>
    obtain ⟨hfields, hbelow⟩ := unwrap_prepareFields hdecode fields hv (n + 1) seen
      (hseen.mono (Nat.le_succ n))
    change (unwrapValue decode ((prepare (.plain 0 fields) n).1.clone flatten) seen).1.erase =
        _ ∧ (unwrapValue decode ((prepare (.plain 0 fields) n).1.clone flatten) seen).2.Below _
    rw [unwrapValue_escapeCollision hseen]
    refine ⟨congrArg (Value.plain 0) hfields, ?_⟩
    refine (hbelow.cons (le_prepareFields fields (n + 1))).mono ?_
    exact le_escapeCollision _ _ _
  | .inst id fields =>
    simp only [prepare]
    change (unwrapValue decode (opaqueValue n (.plain id (fields.clone flatten))) seen).1.erase =
        _ ∧ (unwrapValue decode (opaqueValue n (.plain id (fields.clone flatten))) seen).2.Below _
    rw [unwrapValue_opaqueValue hseen]
    exact ⟨rfl, hseen.mono (Nat.le_succ n)⟩
  | .luxon value =>
    simp only [prepare]
    rw [encodeLuxonValue_clone, unwrapValue_marker hdecode value hseen]
    exact ⟨rfl, hseen.mono (lt_encodeLuxonValue value n).le⟩
  | .undefined | .null | .boolean _ | .string _ | .other _ | .builtin _ _ _ => exact ⟨rfl, hseen⟩

theorem unwrap_prepareItems (hdecode : Inverts decode) (items : Items P B)
    (hv : items.NoProtoKey) (n : ℕ) (seen : Seen P B) (hseen : seen.Below n) :
    (unwrapItems decode ((prepareItems items n).1.clone flatten) seen).1.erase =
        (items.received flatten).erase ∧
      (unwrapItems decode ((prepareItems items n).1.clone flatten) seen).2.Below
        (prepareItems items n).2 := by
  match items with
  | .nil => exact ⟨rfl, hseen⟩
  | .hole rest =>
    obtain ⟨hrest, hbelow⟩ := unwrap_prepareItems hdecode rest hv n seen hseen
    exact ⟨congrArg Items.hole hrest, hbelow⟩
  | .item value rest =>
    obtain ⟨hvalue, hwalked⟩ := unwrap_prepare hdecode value hv.1 n seen hseen
    obtain ⟨hrest, hbelow⟩ := unwrap_prepareItems hdecode rest hv.2 _ _ hwalked
    exact ⟨congrArg₂ Items.item hvalue hrest, hbelow⟩

theorem unwrap_prepareFields (hdecode : Inverts decode) (fields : Fields P B)
    (hv : fields.NoProtoKey) (n : ℕ) (seen : Seen P B) (hseen : seen.Below n) :
    (unwrapFields decode ((prepareFields fields n).1.clone flatten) seen).1.erase =
        (fields.received flatten).erase ∧
      (unwrapFields decode ((prepareFields fields n).1.clone flatten) seen).2.Below
        (prepareFields fields n).2 := by
  match fields with
  | .nil => exact ⟨rfl, hseen⟩
  | .cons key value rest =>
    obtain ⟨hkey, hv, hvrest⟩ := hv
    obtain ⟨hvalue, hwalked⟩ := unwrap_prepare hdecode value hv n seen hseen
    obtain ⟨hrest, hbelow⟩ := unwrap_prepareFields hdecode rest hvrest _ _ hwalked
    -- A key other than `__proto__` is assigned as a field by both walks.
    simp only [prepareFields, Fields.assign_of_ne hkey, Fields.clone, unwrapFields]
    exact ⟨congrArg₂ (Fields.cons key) hvalue hrest, hbelow⟩

end

/-! ## The host's test -/

theorem testOnce_of_fresh {n : ℕ} {seen : List ℕ} (h : ∀ i ∈ seen, i < n)
    (test : List ℕ → Bool × List ℕ) : testOnce seen n test = test (n :: seen) :=
  if_neg fun hmem => Nat.lt_irrefl n (h n hmem)

/-- Old objects stay below the fresh ones. -/
theorem below_cons {n m : ℕ} {seen : List ℕ} (h : ∀ i ∈ seen, i < n) (hle : n < m) :
    ∀ i ∈ n :: seen, i < m := by
  intro i hi
  rcases List.mem_cons.mp hi with rfl | hi
  · exact hle
  · exact (h i hi).trans hle

/-- The objects that are visited are older than `n`, and what is not found is the same. -/
structure Tested (n : ℕ) (tested : Bool × List ℕ) (same : Prop) : Prop where
  below : ∀ i ∈ tested.2, i < n
  same : tested.1 = false → same

/-- An object with framing is found. -/
theorem Tested.found {n m : ℕ} {fields : Fields P B} {seen : List ℕ} {same : Prop}
    (hseen : ∀ i ∈ seen, i < n) (hlt : n < m)
    (hframing : isTransferSentinel fields = true ∨ isEscapedTransferValue fields = true) :
    Tested m (holdsSentinel (.plain n fields) seen) same := by
  have hor : (isTransferSentinel fields || isEscapedTransferValue fields) = true :=
    (Bool.or_eq_true _ _).mpr hframing
  simp only [holdsSentinel]
  rw [testOnce_of_fresh hseen, if_pos hor]
  exact ⟨below_cons hseen hlt, fun h => Bool.noConfusion h⟩

/-- An object without framing is tested field by field. -/
theorem Tested.plain {n m : ℕ} {fields : Fields P B} {seen : List ℕ} {same : Prop}
    (hseen : ∀ i ∈ seen, i < n) (htype : isTransferSentinel fields = false)
    (hescaped : isEscapedTransferValue fields = false)
    (hfields : Tested m (holdsSentinelFields fields (n :: seen)) same) :
    Tested m (holdsSentinel (.plain n fields) seen) same := by
  simp only [holdsSentinel]
  rw [testOnce_of_fresh hseen, htype, hescaped]
  exact hfields

/-- A sequence is the same when its first part and its others are. -/
theorem Tested.seq {n m : ℕ} {first : Bool × List ℕ} {others : List ℕ → Bool × List ℕ}
    {p q : Prop} (hfirst : Tested n first p) (hle : n ≤ m)
    (hothers : (∀ i ∈ first.2, i < n) → Tested m (others first.2) q) :
    Tested m (if first.1 then first else others first.2) (p ∧ q) := by
  have hrest := hothers hfirst.below
  cases hfound : first.1 with
  | true => exact ⟨fun i hi => (hfirst.below i hi).trans_le hle, fun h => by simp [hfound] at h⟩
  | false => exact ⟨hrest.below, fun h => ⟨hfirst.same hfound, hrest.same h⟩⟩

/-- Objects that are not walked are not found. -/
theorem Tested.untouched {n id : ℕ} {seen : List ℕ} {same : Prop} (hseen : ∀ i ∈ seen, i < n)
    (hid : id < n) (hsame : same) : Tested n (testOnce seen id fun seen => (false, seen)) same := by
  refine ⟨fun i hi => ?_, fun _ => hsame⟩
  unfold testOnce at hi
  split at hi
  · exact hseen i hi
  · rcases List.mem_cons.mp hi with rfl | hi
    · exact hid
    · exact hseen i hi

mutual

/-- Where the test finds nothing, the host has what it should get. -/
theorem holdsSentinel_prepare (value : Value P B) (hv : value.NoProtoKey) (n : ℕ)
    (hfresh : value.fresh ≤ n) (seen : List ℕ) (hseen : ∀ i ∈ seen, i < n) :
    Tested (prepare value n).2 (holdsSentinel ((prepare value n).1.clone flatten) seen)
      (((prepare value n).1.clone flatten).erase = (value.received flatten).erase) := by
  match value with
  | .array id items =>
    have htested := holdsSentinel_prepareItems items hv (n + 1)
      ((le_max_right _ _).trans (hfresh.trans (Nat.le_succ n))) (n :: seen)
      (below_cons hseen (Nat.lt_succ_self n))
    simp only [prepare, Value.clone, holdsSentinel]
    rw [testOnce_of_fresh hseen]
    exact ⟨htested.below, fun h => congrArg (Value.array 0) (htested.same h)⟩
  | .plain id fields =>
    have hlt := le_prepareFields fields (n + 1)
    simp only [prepare]
    cases hcollides : fields.keys.any (TRANSFER_FRAMING_KEYS.contains ·) with
    | true =>
      -- The test finds the wrapper of an escaped object.
      exact Tested.found (fun i hi => (hseen i hi).trans (by omega)) (Nat.lt_succ_self _)
        (Or.inr rfl)
    | false =>
      obtain ⟨htype, hescaped⟩ :=
        not_framing_of_not_collides flatten (n + 1) hcollides
      have htested := holdsSentinel_prepareFields fields hv (n + 1)
        ((le_max_right _ _).trans (hfresh.trans (Nat.le_succ n))) (n :: seen)
        (below_cons hseen (Nat.lt_succ_self n))
      exact Tested.plain hseen htype hescaped
        ⟨htested.below, fun h => congrArg (Value.plain 0) (htested.same h)⟩
  | .inst id fields => exact Tested.found hseen (Nat.lt_succ_self n) (Or.inr rfl)
  | .luxon value =>
    obtain ⟨fields, hfields, hsentinel⟩ := encodeLuxonValue_eq (B := B) value n
    simp only [prepare]
    rw [encodeLuxonValue_clone, hfields]
    exact Tested.found hseen (lt_encodeLuxonValue value n) (Or.inl hsentinel)
  | .builtin id kind contents =>
    exact Tested.untouched hseen ((le_max_left _ _).trans hfresh) rfl
  | .undefined | .null | .boolean _ | .string _ | .other _ => exact ⟨hseen, fun _ => rfl⟩

theorem holdsSentinel_prepareItems (items : Items P B) (hv : items.NoProtoKey) (n : ℕ)
    (hfresh : items.fresh ≤ n) (seen : List ℕ) (hseen : ∀ i ∈ seen, i < n) :
    Tested (prepareItems items n).2
      (holdsSentinelItems ((prepareItems items n).1.clone flatten) seen)
      (((prepareItems items n).1.clone flatten).erase = (items.received flatten).erase) := by
  match items with
  | .nil => exact ⟨hseen, fun _ => rfl⟩
  | .hole rest =>
    have htested := holdsSentinel_prepareItems rest hv n hfresh seen hseen
    exact ⟨htested.below, fun h => congrArg Items.hole (htested.same h)⟩
  | .item value rest =>
    have hvalue := holdsSentinel_prepare value hv.1 n
      ((le_max_left _ _).trans hfresh) seen hseen
    have hle := le_prepare value n
    have htested := hvalue.seq (le_prepareItems rest _) fun hbelow =>
      holdsSentinel_prepareItems rest hv.2 _
        (((le_max_right _ _).trans hfresh).trans hle) _ hbelow
    exact ⟨htested.below, fun h =>
      congrArg₂ Items.item (htested.same h).1 (htested.same h).2⟩

theorem holdsSentinel_prepareFields (fields : Fields P B) (hv : fields.NoProtoKey) (n : ℕ)
    (hfresh : fields.fresh ≤ n) (seen : List ℕ) (hseen : ∀ i ∈ seen, i < n) :
    Tested (prepareFields fields n).2
      (holdsSentinelFields ((prepareFields fields n).1.clone flatten) seen)
      (((prepareFields fields n).1.clone flatten).erase = (fields.received flatten).erase) := by
  match fields with
  | .nil => exact ⟨hseen, fun _ => rfl⟩
  | .cons key value rest =>
    obtain ⟨hkey, hv, hvrest⟩ := hv
    have hvalue := holdsSentinel_prepare value hv n
      ((le_max_left _ _).trans hfresh) seen hseen
    have hle := le_prepare value n
    have htested := hvalue.seq (le_prepareFields rest _) fun hbelow =>
      holdsSentinel_prepareFields rest hvrest _
        (((le_max_right _ _).trans hfresh).trans hle) _ hbelow
    simp only [prepareFields, Fields.assign_of_ne hkey, Fields.clone, holdsSentinelFields]
    exact ⟨htested.below, fun h =>
      congrArg₂ (Fields.cons key) (htested.same h).1 (htested.same h).2⟩

end

/-! ## A decoder -/

def Fields.text (fields : Fields P B) (key : String) : Option String :=
  match fields.get key with
  | .string s => some s
  | _ => none

def Fields.invalidArguments (fields : Fields P B) : String × Option String :=
  ((fields.text "__invalidReason").getD "unknown", fields.text "__invalidExplanation")

def readDateTime (fields : Fields P B) : DateTime :=
  match fields.text "__isoString" with
  | some isoString => .valid isoString (fields.text "__zone")
  | none => .invalid fields.invalidArguments.1 fields.invalidArguments.2

def readDurationValues : Fields P B → List (String × P)
  | .cons unit (.other amount) rest => (unit, amount) :: readDurationValues rest
  | _ => []

def readDuration (fields : Fields P B) : Luxon P :=
  match fields.get "__values" with
  | .plain _ values => .duration (readDurationValues values)
  | _ => .invalidDuration fields.invalidArguments.1 fields.invalidArguments.2

def readInterval (fields : Fields P B) : Luxon P :=
  match fields.get "__start", fields.get "__end" with
  | .plain _ start, .plain _ stop => .interval (readDateTime start) (readDateTime stop)
  | _, _ => .invalidInterval fields.invalidArguments.1 fields.invalidArguments.2

/-- A decoder that reads the fields of the markers, and gives any other value back. -/
def readMarker : Value P B → Value P B
  | .plain id fields =>
    match fields.text TRANSFER_TYPE_KEY with
    | some type =>
      if type = "DateTime" then .luxon (.dateTime (readDateTime fields))
      else if type = "Duration" then .luxon (readDuration fields)
      else if type = "Interval" then .luxon (readInterval fields)
      else .plain id fields
    | none => .plain id fields
  | value => value

theorem readDateTime_dateTimeToSentinel (value : DateTime) :
    readDateTime (dateTimeToSentinel value : Fields P B) = value := by
  cases value with
  | valid isoString zone => cases zone <;> rfl
  | invalid reason explanation => cases explanation <;> rfl

theorem readDurationValues_durationValues (values : List (String × P)) :
    readDurationValues (durationValues values : Fields P B) = values := by
  induction values with
  | nil => rfl
  | cons entry rest ih => exact congrArg (entry :: ·) ih

theorem inverts_readMarker : Inverts (readMarker : Value P B → Value P B) := by
  intro value n
  cases value with
  | dateTime value =>
    have hread := readDateTime_dateTimeToSentinel (P := P) (B := B) value
    cases value with
    | valid isoString zone => exact congrArg (fun v => Value.luxon (.dateTime v)) hread
    | invalid reason explanation => exact congrArg (fun v => Value.luxon (.dateTime v)) hread
  | duration values =>
    exact congrArg (fun v => Value.luxon (.duration v))
      (readDurationValues_durationValues (B := B) values)
  | invalidDuration reason explanation => cases explanation <;> rfl
  | interval start stop =>
    exact congrArg₂ (fun v w => Value.luxon (.interval v w))
      (readDateTime_dateTimeToSentinel (P := P) (B := B) start)
      (readDateTime_dateTimeToSentinel (P := P) (B := B) stop)
  | invalidInterval reason explanation => cases explanation <;> rfl

/-! ## The round trip -/

/-- What crosses the boundary and is unwrapped is what was sent: the luxon values that the walk
reaches are instances, and all data is data, whatever the decoder makes of it. -/
theorem unwrapTransferSentinels_prepareForTransfer (flatten : Luxon P → ℕ × Fields P B)
    (hdecode : Inverts decode) (value : Value P B) (hv : value.NoProtoKey) :
    (unwrapTransferSentinels decode ((prepareForTransfer value).clone flatten)).erase =
      (value.received flatten).erase := by
  unfold unwrapTransferSentinels prepareForTransfer
  split
  · exact (unwrap_prepare hdecode value hv value.fresh [] fun e he =>
      absurd he List.not_mem_nil).1
  next hnot =>
    exact (holdsSentinel_prepare value hv value.fresh (le_refl _) [] fun i hi =>
      absurd hi List.not_mem_nil).same (Bool.eq_false_iff.mpr hnot)

/-- A date in the zone of the system. -/
def sampleDate : Luxon ℤ :=
  .dateTime (.valid "2024-01-15T10:00:00.000Z" none)

/-- Structured clone keeps the timestamp of a luxon value. -/
def sampleFields : Luxon ℤ → ℕ × Fields ℤ String :=
  fun _ => (0, .cons "ts" (.other 1705312800000) .nil)

/-- Data that looks like a marker around a date, beside an array with a hole and an instance that
looks like a marker. -/
def sampleValue : Value ℤ String :=
  .plain 0 <|
    .cons TRANSFER_TYPE_KEY (.string "DateTime") <|
      .cons TRANSFER_OPAQUE_KEY (.boolean true) <|
        .cons "list" (.array 1 (.item (.luxon sampleDate) (.hole (.item (.string "a") .nil)))) <|
          .cons "row" (.inst 2 (.cons TRANSFER_TYPE_KEY (.string "DateTime") .nil)) .nil

theorem unwrapTransferSentinels_prepareForTransfer_sample :
    (unwrapTransferSentinels readMarker ((prepareForTransfer sampleValue).clone sampleFields)).erase
      = (sampleValue.received sampleFields).erase :=
  unwrapTransferSentinels_prepareForTransfer sampleFields inverts_readMarker sampleValue
    ⟨by decide, trivial, by decide, trivial, by decide, ⟨trivial, trivial, trivial⟩, by decide,
      trivial, trivial⟩

def sampleMap : Value ℤ String :=
  .builtin 0 "Map" (.item (.string "when") (.item (.luxon sampleDate) .nil))

/-- An object with a field `__proto__`. -/
def sampleProto : Value ℤ String :=
  .plain 0 (.cons "__proto__" (.other 1) (.cons "n" (.other 2) .nil))

/-- The date in the map comes back as a plain object, and the field `__proto__` does not come
back. -/
theorem not_rebuilt :
    Inverts (readMarker : Value ℤ String → Value ℤ String) ∧
      (unwrapTransferSentinels readMarker ((prepareForTransfer sampleMap).clone sampleFields)).erase
        ≠ sampleMap.rebuilt.erase ∧
      (unwrapTransferSentinels readMarker
          ((prepareForTransfer sampleProto).clone sampleFields)).erase ≠
        sampleProto.rebuilt.erase := by
  refine ⟨inverts_readMarker, fun h => ?_, fun h => ?_⟩
  · change Value.builtin 0 "Map" (.item (.string "when") (.item (.plain 0 _) .nil)) =
      .builtin 0 "Map" (.item (.string "when") (.item (.luxon sampleDate) .nil)) at h
    simp at h
  · change Value.plain 0 (.cons "n" (.other 2) .nil) =
      .plain 0 (.cons "__proto__" (.other 1) (.cons "n" (.other 2) .nil)) at h
    simp at h

end N8n.ExpressionRuntime.Transfer
