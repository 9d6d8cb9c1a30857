import N8n.Common.Base64Url
import N8n.Common.JsonText

/-!
# Execution cursors

A cursor holds a position in each of two stores: the identifier and the time of the last row of the
store that was listed. It is sent as the base64url of a JSON text, and what comes back is checked.

The validators of times and UUIDs, the rounding of numbers and what a malformed UTF-8 text is read
as are parameters.

## Main definitions

* `ExecutionCursor`: the positions, in the order in which they were set
* `encodeExecutionCursor`, `parseExecutionCursor`: a cursor as it is sent and received

## Main results

* `parse_encode`: a short cursor with valid positions is accepted and has the same positions
-/

namespace N8n.ExecutionList

open JsonText

open JsonText (quote value members)

/-! ## Cursors -/

inductive Store
  | v1 | v2
deriving DecidableEq, Repr

def Store.name : Store → String
  | .v1 => "v1"
  | .v2 => "v2"

structure ExecutionPosition where
  id : String
  timestamp : String
deriving DecidableEq, Repr

abbrev ExecutionCursor := OrderedMap Store ExecutionPosition

/-- The validators, and the parts of the platform that a cursor depends on. -/
structure Platform where
  /-- `z.string().datetime({ offset: true })` -/
  datetime : String → Bool
  /-- `z.string().uuid()` -/
  uuid : String → Bool
  /-- The nearest number of double precision. -/
  double : ℚ → ℚ
  /-- What bytes that are not UTF-8 are read as. -/
  malformed : ByteArray → String

structure BadRequestError where
  message : String
deriving DecidableEq, Repr

def invalidCursor : BadRequestError := ⟨"Invalid execution cursor"⟩

/-! ## Sending -/

def positionText (position : ExecutionPosition) : List Char :=
  '{' :: (quote "id" ++ ':' :: (quote position.id ++ ',' :: (quote "timestamp" ++ ':' ::
    (quote position.timestamp ++ ['}']))))

def entryText (entry : Store × ExecutionPosition) : List Char :=
  ',' :: (quote entry.1.name ++ ':' :: positionText entry.2)

def cursorText (cursor : ExecutionCursor) : List Char :=
  '{' :: (quote "version" ++ ':' :: '1' :: (cursor.entries.flatMap entryText ++ ['}']))

def encodeExecutionCursor (cursor : ExecutionCursor) : String :=
  String.ofList (Base64Url.encode (String.ofList (cursorText cursor)).toUTF8.data.toList)

/-! ## Receiving -/

/-- The value of a numeral. -/
def number (id : String) : ℕ := Nat.ofDigitChars 10 id.toList 0

/-- An engine 1.0 execution ID: an auto-increment integer. -/
def isV1Id (id : String) : Bool :=
  match id.toList with
  | [] => false
  | c :: rest => '1' ≤ c && c ≤ '9' && rest.all Char.isDigit && number id ≤ 2147483647

section Parse

variable (z : Platform)

/-- The schema of a position. It is strict: there are no other fields. -/
def parsePosition (validId : String → Bool) (v : JsonValue) : Option ExecutionPosition :=
  match v with
  | .object fields =>
    match v.field "timestamp", v.field "id" with
    | some (.string timestamp), some (.string id) =>
      if (fields.all fun f => f.1 = "timestamp" || f.1 = "id") && z.datetime timestamp && validId id
      then some ⟨id, timestamp⟩
      else none
    | _, _ => none
  | _ => none

def parseOptional (validId : String → Bool) : Option JsonValue → Option (Option ExecutionPosition)
  | none => some none
  | some v => (parsePosition z validId v).map some

def isVersion (v : Option JsonValue) : Bool :=
  match v with
  | some (.number n) => z.double n = 1
  | _ => false

/-- The fields of what the schema returns have its order. -/
def ofPositions (v1 v2 : Option ExecutionPosition) : ExecutionCursor :=
  match v1, v2 with
  | none, none => .empty
  | some p, none => OrderedMap.empty.set .v1 p
  | none, some q => OrderedMap.empty.set .v2 q
  | some p, some q => (OrderedMap.empty.set .v1 p).set .v2 q

def parseCursor (v : JsonValue) : Option ExecutionCursor :=
  match v with
  | .object fields =>
    if (fields.all fun f => f.1 = "version" || f.1 = "v1" || f.1 = "v2") &&
        isVersion z (v.field "version") then
      (parseOptional z isV1Id (v.field "v1")).bind fun v1 =>
        (parseOptional z z.uuid (v.field "v2")).map (ofPositions v1)
    else none
  | _ => none

/-- `Buffer.from(value, 'base64url').toString('utf8')` -/
def decodeText (value : String) : String :=
  let bytes := ByteArray.mk (Base64Url.decode value.toList).toArray
  (String.fromUTF8? bytes).getD (z.malformed bytes)

def parseExecutionCursor (value : Option String) : Except BadRequestError ExecutionCursor :=
  match value with
  | none => .ok .empty
  | some value =>
    if value.isEmpty || 2048 < value.length ||
        ! value.toList.all fun c => (Base64Url.digitValue c).isSome then
      .error invalidCursor
    else
      match (JsonText.parse (decodeText z value).toList).bind (parseCursor z) with
      | none => .error invalidCursor
      | some cursor => .ok cursor

end Parse

/-! ## The round trip -/

def positionValue (position : ExecutionPosition) : JsonValue :=
  .object [("id", .string position.id), ("timestamp", .string position.timestamp)]

def cursorFields (cursor : ExecutionCursor) : List (String × JsonValue) :=
  ("version", .number 1) :: cursor.entries.map fun entry => (entry.1.name, positionValue entry.2)

theorem value_positionText (n : ℕ) (position : ExecutionPosition) (rest : List Char) :
    value (n + 4) (positionText position ++ rest) = some (positionValue position, rest) := by
  have hid : value (n + 2) (quote position.id ++ ',' :: (quote "timestamp" ++ ':' ::
      (quote position.timestamp ++ '}' :: rest))) = some (.string position.id, ',' ::
        (quote "timestamp" ++ ':' :: (quote position.timestamp ++ '}' :: rest))) :=
    value_quote (n + 1) position.id _
  have htimestamp : value (n + 1) (quote position.timestamp ++ '}' :: rest) =
      some (.string position.timestamp, '}' :: rest) :=
    value_quote n position.timestamp _
  have hread : value (n + 4) ('{' :: (quote "id" ++ ':' :: (quote position.id ++ ',' ::
      (quote "timestamp" ++ ':' :: (quote position.timestamp ++ '}' :: rest))))) =
        some (positionValue position, rest) :=
    value_object ((members_comma [] "id" hid).trans
      (members_close _ "timestamp" htimestamp))
  simpa [positionText] using hread

/-- The number of the version, before the next field or the end. -/
theorem value_version (n : ℕ) {c : Char} (rest : List Char) (hc : c = ',' ∨ c = '}') :
    value (n + 1) ('1' :: c :: rest) = some (.number 1, c :: rest) := by
  have hnumber : JsonText.number ('1' :: c :: rest) = some (1, c :: rest) := by
    have hone : (((1 : ℕ) : ℚ) + 0) * 1 = 1 := by norm_num
    obtain rfl | rfl := hc
    · exact congrArg (fun q => some (q, ',' :: rest)) hone
    · exact congrArg (fun q => some (q, '}' :: rest)) hone
  have hskip : skip ('1' :: c :: rest) = '1' :: c :: rest := rfl
  simp only [value, hskip]
  exact congrArg (Option.map fun q => (JsonValue.number q.1, q.2)) hnumber

/-- The entries of a cursor, after a field. -/
theorem members_entries (entry : Store × ExecutionPosition)
    (entries : List (Store × ExecutionPosition)) (n : ℕ) (fields : List (String × JsonValue))
    (rest : List Char) :
    members (n + entries.length + 5) ((entryText entry).tail ++ (entries.flatMap entryText ++
      '}' :: rest)) fields = some ((entry :: entries).foldl (fun fields entry =>
        OrderedMap.Entries.upsert entry.1.name (positionValue entry.2) fields) fields, rest) := by
  induction entries generalizing entry fields with
  | nil =>
    have hposition := value_positionText n entry.2 ('}' :: rest)
    have hread := members_close fields entry.1.name hposition
    simpa [entryText] using hread
  | cons next entries ih =>
    have hposition := value_positionText (n + entries.length + 1) entry.2
      (',' :: ((entryText next).tail ++ (entries.flatMap entryText ++ '}' :: rest)))
    have hread := (members_comma fields entry.1.name hposition).trans
      (ih next _)
    simpa [entryText, Nat.add_assoc, Nat.add_comm, Nat.add_left_comm] using hread

section ExecutionCursor

variable (cursor : ExecutionCursor)
include cursor

/-- A cursor has at most one position in each store. -/
theorem entries_cases : cursor.entries = [] ∨
    (∃ p, cursor.entries = [(.v1, p)]) ∨ (∃ q, cursor.entries = [(.v2, q)]) ∨
      (∃ p q, cursor.entries = [(.v1, p), (.v2, q)]) ∨
        ∃ p q, cursor.entries = [(.v2, q), (.v1, p)] := by
  obtain ⟨entries, hnodup⟩ := cursor
  match entries with
  | [] => exact .inl rfl
  | [(.v1, p)] => exact .inr (.inl ⟨p, rfl⟩)
  | [(.v2, q)] => exact .inr (.inr (.inl ⟨q, rfl⟩))
  | [(.v1, p), (.v2, q)] => exact .inr (.inr (.inr (.inl ⟨p, q, rfl⟩)))
  | [(.v2, q), (.v1, p)] => exact .inr (.inr (.inr (.inr ⟨p, q, rfl⟩)))
  | [(.v1, p), (.v1, p')] => simp at hnodup
  | [(.v2, q), (.v2, q')] => simp at hnodup
  | (s, p) :: (s', p') :: (s'', p'') :: entries =>
    -- two of three stores are the same
    exfalso
    simp only [List.map_cons, List.nodup_cons, List.mem_cons, not_or] at hnodup
    cases s <;> cases s' <;> cases s'' <;> simp_all

/-- The fields that are read are those of the cursor. -/
theorem foldl_entries :
    cursor.entries.foldl (fun fields entry =>
      OrderedMap.Entries.upsert entry.1.name (positionValue entry.2) fields)
        [("version", .number 1)] = cursorFields cursor := by
  unfold cursorFields
  obtain h | ⟨p, h⟩ | ⟨q, h⟩ | ⟨p, q, h⟩ | ⟨p, q, h⟩ := entries_cases cursor <;>
    simp [h, OrderedMap.Entries.upsert, Store.name]

theorem length_entries_le : cursor.entries.length ≤ 2 := by
  obtain h | ⟨p, h⟩ | ⟨q, h⟩ | ⟨p, q, h⟩ | ⟨p, q, h⟩ := entries_cases cursor <;> simp [h]

/-- The text of a cursor is read to its end. -/
theorem parse_cursorText :
    parse (cursorText cursor) = some (.object (cursorFields cursor)) := by
  have hfields := foldl_entries cursor
  -- the text is longer than the bound on its depth needs to be
  obtain ⟨n, hn⟩ : ∃ n, (cursorText cursor).length = n + cursor.entries.length + 7 := by
    have hversion : (quote "version").length = 9 := rfl
    have hentries := length_entries_le cursor
    refine ⟨(cursorText cursor).length - cursor.entries.length - 7, ?_⟩
    unfold cursorText
    simp only [List.length_cons, List.length_append, hversion, List.length_nil]
    omega
  refine parse_eq ?_
  rw [hn]
  cases hcursor : cursor.entries with
  | nil =>
    have hversion := value_version (n + 5) [] (.inr rfl)
    have hread := value_object (members_close [] "version" hversion)
    rw [hcursor] at hfields
    rw [← hfields]
    simpa [cursorText, hcursor, OrderedMap.Entries.upsert] using hread
  | cons entry entries =>
    have hversion := value_version (n + entries.length + 6)
      ((entryText entry).tail ++ (entries.flatMap entryText ++ ['}'])) (.inl rfl)
    have hentries := members_entries entry entries (n + 2)
      (OrderedMap.Entries.upsert "version" (.number 1) []) []
    rw [Nat.add_right_comm n 2] at hentries
    have hread := value_object ((members_comma [] "version" hversion).trans
      hentries)
    rw [hcursor] at hfields
    rw [← hfields]
    simpa [cursorText, hcursor, entryText, OrderedMap.Entries.upsert, Nat.add_assoc, Nat.add_comm,
      Nat.add_left_comm] using hread

theorem field_cursorFields (store : Store) :
    (JsonValue.object (cursorFields cursor)).field store.name =
      (cursor.get? store).map positionValue := by
  unfold cursorFields OrderedMap.get?
  obtain h | ⟨p, h⟩ | ⟨q, h⟩ | ⟨p, q, h⟩ | ⟨p, q, h⟩ := entries_cases cursor <;> cases store <;>
    simp [h, JsonValue.field, OrderedMap.Entries.lookup, Store.name]

/-- All fields are known. -/
theorem all_cursorFields :
    (cursorFields cursor).all (fun f => f.1 = "version" || f.1 = "v1" || f.1 = "v2") = true := by
  unfold cursorFields
  obtain h | ⟨p, h⟩ | ⟨q, h⟩ | ⟨p, q, h⟩ | ⟨p, q, h⟩ := entries_cases cursor <;>
    simp [h, Store.name]

end ExecutionCursor

theorem get?_ofPositions (v1 v2 : Option ExecutionPosition) :
    (ofPositions v1 v2).get? .v1 = v1 ∧ (ofPositions v1 v2).get? .v2 = v2 := by
  cases v1 <;> cases v2 <;> exact ⟨rfl, rfl⟩

section RoundTrip

variable {z : Platform} {cursor : ExecutionCursor} {validId : String → Bool}

/-- A position passes its own checks. -/
def ExecutionPosition.IsValid (z : Platform) (validId : String → Bool)
    (position : ExecutionPosition) : Prop :=
  z.datetime position.timestamp = true ∧ validId position.id = true

theorem parsePosition_positionValue {position : ExecutionPosition} :
    parsePosition z validId (positionValue position) = some position ↔
      position.IsValid z validId := by
  have htimestamp : (positionValue position).field "timestamp" =
    some (.string position.timestamp) := rfl
  have hid : (positionValue position).field "id" = some (.string position.id) := rfl
  have hfields : [("id", JsonValue.string position.id),
      ("timestamp", .string position.timestamp)].all
        (fun f => f.1 = "timestamp" || f.1 = "id") = true := rfl
  unfold positionValue at htimestamp hid
  simp only [parsePosition, positionValue, htimestamp, hid, hfields, Bool.true_and]
  split_ifs with hvalid
  · exact iff_of_true rfl (Bool.and_eq_true_iff.mp hvalid)
  · exact iff_of_false id fun h => hvalid (Bool.and_eq_true_iff.mpr h)

theorem parseOptional_positionValue {position : Option ExecutionPosition}
    (h : ∀ p ∈ position, p.IsValid z validId) :
    parseOptional z validId (position.map positionValue) = some position := by
  cases position with
  | none => rfl
  | some p =>
    rw [Option.map_some, parseOptional, parsePosition_positionValue.mpr (h p rfl), Option.map_some]

/-- The schema accepts a cursor with valid positions. -/
theorem parseCursor_cursorFields (hdouble : z.double 1 = 1)
    (hv1 : ∀ p ∈ cursor.get? .v1, p.IsValid z isV1Id)
    (hv2 : ∀ p ∈ cursor.get? .v2, p.IsValid z z.uuid) :
    parseCursor z (.object (cursorFields cursor)) =
      some (ofPositions (cursor.get? .v1) (cursor.get? .v2)) := by
  have hversion : isVersion z ((JsonValue.object (cursorFields cursor)).field "version") =
      true := by
    have hfield : (JsonValue.object (cursorFields cursor)).field "version" = some (.number 1) := rfl
    rw [hfield]
    exact decide_eq_true hdouble
  have h1 : (JsonValue.object (cursorFields cursor)).field "v1" = _ := field_cursorFields cursor .v1
  have h2 : (JsonValue.object (cursorFields cursor)).field "v2" = _ := field_cursorFields cursor .v2
  rw [parseCursor, all_cursorFields, hversion, h1, h2, parseOptional_positionValue hv1,
    parseOptional_positionValue hv2]
  rfl

theorem fromUTF8?_toUTF8 (text : String) : String.fromUTF8? text.toUTF8 = some text :=
  dif_pos text.isValidUTF8

theorem decodeText_encode (z : Platform) (cursor : ExecutionCursor) :
    decodeText z (encodeExecutionCursor cursor) = String.ofList (cursorText cursor) := by
  have hbytes : ByteArray.mk (String.ofList (cursorText cursor)).toUTF8.data.toList.toArray =
    (String.ofList (cursorText cursor)).toUTF8 := rfl
  unfold decodeText encodeExecutionCursor
  rw [String.toList_ofList, Base64Url.decode_encode, hbytes]
  dsimp only
  rw [fromUTF8?_toUTF8, Option.getD_some]

/-- A character takes four bytes at most. -/
theorem length_utf8 (text : List Char) :
    (String.ofList text).toUTF8.data.toList.length ≤ 4 * text.length := by
  have hsize : text.utf8Encode.size ≤ 4 * text.length := by
    induction text with
    | nil => exact Nat.zero_le _
    | cons c text ih =>
      have hc := c.utf8Size_le_four
      rw [List.utf8Encode_cons, ByteArray.size_append, List.utf8Encode_singleton,
        List.size_toByteArray, String.length_utf8EncodeChar, List.length_cons]
      omega
  exact hsize

theorem utf8_ne_nil {text : List Char} (h : text ≠ []) :
    (String.ofList text).toUTF8.data.toList ≠ [] := by
  intro hnil
  have hempty : text.utf8Encode = ByteArray.empty :=
    ByteArray.ext (Array.toList_eq_nil_iff.mp hnil)
  exact h (List.utf8Encode_eq_empty.mp hempty)

/-- What a short cursor is received as. -/
theorem parse_encode_eq (z : Platform) (hlength : (cursorText cursor).length ≤ 380) :
    parseExecutionCursor z (some (encodeExecutionCursor cursor)) =
      match parseCursor z (.object (cursorFields cursor)) with
      | none => .error invalidCursor
      | some cursor => .ok cursor := by
  have hbytes := length_utf8 (cursorText cursor)
  have hcount := Base64Url.length_encode_le (String.ofList (cursorText cursor)).toUTF8.data.toList
  have hshort : ¬ 2048 < (encodeExecutionCursor cursor).length := by
    unfold encodeExecutionCursor
    rw [String.length_ofList]
    omega
  have hnonempty : (encodeExecutionCursor cursor).isEmpty = false := by
    refine Bool.eq_false_iff.mpr fun hempty => ?_
    have hnil := congrArg String.toList (String.isEmpty_iff.mp hempty)
    rw [encodeExecutionCursor, String.toList_ofList] at hnil
    exact Base64Url.encode_ne_nil (utf8_ne_nil (List.cons_ne_nil _ _)) hnil
  have halphabet : (encodeExecutionCursor cursor).toList.all
      (fun c => (Base64Url.digitValue c).isSome) = true := by
    refine List.all_eq_true.mpr fun c hc => ?_
    rw [encodeExecutionCursor, String.toList_ofList] at hc
    exact Base64Url.isSome_digitValue hc
  unfold parseExecutionCursor
  dsimp only
  rw [hnonempty, halphabet, decodeText_encode, String.toList_ofList, parse_cursorText]
  simp [hshort]

/-- **The round trip**: a short cursor with valid positions is accepted and has the same ones. -/
theorem parse_encode (hlength : (cursorText cursor).length ≤ 380) (hdouble : z.double 1 = 1)
    (hv1 : ∀ p ∈ cursor.get? .v1, p.IsValid z isV1Id)
    (hv2 : ∀ p ∈ cursor.get? .v2, p.IsValid z z.uuid) :
    ∃ received, parseExecutionCursor z (some (encodeExecutionCursor cursor)) = .ok received ∧
      ∀ store, received.get? store = cursor.get? store := by
  refine ⟨ofPositions (cursor.get? .v1) (cursor.get? .v2), ?_, fun store => ?_⟩
  · rw [parse_encode_eq z hlength, parseCursor_cursorFields hdouble hv1 hv2]
  · obtain ⟨h1, h2⟩ := get?_ofPositions (cursor.get? .v1) (cursor.get? .v2)
    cases store with
    | v1 => exact h1
    | v2 => exact h2

end RoundTrip

end N8n.ExecutionList
