import N8n.Common.Utf8

/-!
# The worker protocol

Messages between a document and the worker that connects it carry the id of the document after the
byte of their type: two bytes for the length of the id as UTF-8, the id, then the payload. Messages
to the server are without the id.

## Main definitions

* `encodeMessage`, `decodeMessage`: messages to the server
* `encodeWithDocId`, `decodeWithDocId`: messages to the worker
* `addDocId`, `stripDocId`: one kind of message to the other

## Main results

* `decodeWithDocId_encodeWithDocId`: what is read from a message that was written
* `worker_roundTrip_iff`: the ids with which every message is read back
-/

namespace N8n.Crdt.WorkerProtocol

open Utf8 (byteOrderMark isWellFormed)

abbrev Bytes := List UInt8

structure Decoded where
  messageType : ℕ
  payload : Bytes
deriving DecidableEq

structure DecodedWithDocId where
  messageType : ℕ
  docId : JsString
  payload : Bytes
deriving DecidableEq

def encodeMessage (messageType : ℕ) (payload : Bytes) : Bytes := UInt8.ofNat messageType :: payload

def decodeMessage : Bytes → Except String Decoded
  | [] => .error "Empty message"
  | messageType :: payload => .ok ⟨messageType.toNat, payload⟩

def encodeWithDocId (messageType : ℕ) (docId : JsString) (payload : Bytes) : Bytes :=
  let docIdBytes := Utf8.encode docId
  let docIdLen := docIdBytes.length
  -- the length of the id as a big-endian u16
  UInt8.ofNat messageType :: UInt8.ofNat (docIdLen >>> 8 &&& 0xff) ::
    UInt8.ofNat (docIdLen &&& 0xff) :: (docIdBytes ++ payload)

def decodeWithDocId : Bytes → Except String DecodedWithDocId
  | messageType :: high :: low :: rest =>
    let docIdLen := high.toNat <<< 8 ||| low.toNat
    if rest.length < docIdLen then .error "Message too short for declared docId length"
    else .ok ⟨messageType.toNat, Utf8.decode (rest.take docIdLen), rest.drop docIdLen⟩
  | _ => .error "Message too short to contain docId"

def stripDocId (data : Bytes) : Except String Bytes :=
  (decodeWithDocId data).map fun message => encodeMessage message.messageType message.payload

def addDocId (docId : JsString) (data : Bytes) : Except String Bytes :=
  (decodeMessage data).map fun message =>
    encodeWithDocId message.messageType docId message.payload

/-! ## The length of the id -/

theorem length_bytes (n : ℕ) :
    (UInt8.ofNat (n >>> 8 &&& 0xff)).toNat <<< 8 ||| (UInt8.ofNat (n &&& 0xff)).toNat =
      n % 0x10000 := by
  have hhigh : n >>> 8 &&& 0xff = n / 256 % 256 := by
    rw [Nat.shiftRight_eq_div_pow]
    exact Nat.and_two_pow_sub_one_eq_mod _ 8
  have hlow : n &&& 0xff = n % 256 := Nat.and_two_pow_sub_one_eq_mod _ 8
  have hlt : n % 256 < 2 ^ 8 := Nat.mod_lt _ (by omega)
  rw [hhigh, hlow, Utf8.toNat_byte (Nat.mod_lt _ (by omega)), Utf8.toNat_byte hlt,
    ← Nat.shiftLeft_add_eq_or_of_lt hlt, Nat.shiftLeft_eq]
  omega

section RoundTrip

variable (messageType : UInt8) (docId : JsString) (payload : Bytes)

/-- Only the low 16 bits of the length are written, and the bytes of the id after that many are
read as part of the payload. -/
theorem decodeWithDocId_encodeWithDocId :
    decodeWithDocId (encodeWithDocId messageType.toNat docId payload) =
      .ok ⟨messageType.toNat,
        Utf8.decode ((Utf8.encode docId).take ((Utf8.encode docId).length % 0x10000)),
        (Utf8.encode docId).drop ((Utf8.encode docId).length % 0x10000) ++ payload⟩ := by
  have hle : (Utf8.encode docId).length % 0x10000 ≤ (Utf8.encode docId).length := Nat.mod_le _ _
  have henough :
      ¬ (Utf8.encode docId ++ payload).length < (Utf8.encode docId).length % 0x10000 := by
    rw [List.length_append]
    omega
  simp only [encodeWithDocId, decodeWithDocId, length_bytes]
  rw [if_neg henough, UInt8.ofNat_toNat, List.take_append_of_le_length hle,
    List.drop_append_of_le_length hle]

theorem drop_append_eq_iff :
    (Utf8.encode docId).drop ((Utf8.encode docId).length % 0x10000) ++ payload = payload ↔
      (Utf8.encode docId).length < 0x10000 := by
  rw [List.append_left_eq_self, List.drop_eq_nil_iff]
  omega

theorem stripDocId_addDocId :
    addDocId docId (encodeMessage messageType.toNat payload) >>= stripDocId =
      .ok (encodeMessage messageType.toNat
        ((Utf8.encode docId).drop ((Utf8.encode docId).length % 0x10000) ++ payload)) := by
  have hadd : addDocId docId (encodeMessage messageType.toNat payload) =
      .ok (encodeWithDocId messageType.toNat docId payload) := by
    rw [encodeMessage, UInt8.ofNat_toNat]
    rfl
  rw [hadd]
  change stripDocId _ = _
  rw [stripDocId, decodeWithDocId_encodeWithDocId]
  rfl

/-- An id that is added is stripped again. -/
theorem stripDocId_addDocId_iff :
    addDocId docId (encodeMessage messageType.toNat payload) >>= stripDocId =
        .ok (encodeMessage messageType.toNat payload) ↔
      (Utf8.encode docId).length < 0x10000 := by
  rw [stripDocId_addDocId, ← drop_append_eq_iff docId payload]
  constructor
  · intro h
    exact (List.cons.inj (Except.ok.inj h)).2
  · intro h
    rw [h]

theorem decodeWithDocId_encodeWithDocId_iff :
    decodeWithDocId (encodeWithDocId messageType.toNat docId payload) =
        .ok ⟨messageType.toNat, docId, payload⟩ ↔
      (Utf8.encode docId).length < 0x10000 ∧ isWellFormed docId ∧
        docId.head? ≠ some byteOrderMark := by
  rw [decodeWithDocId_encodeWithDocId, ← Utf8.decode_encode_iff]
  constructor
  · intro h
    obtain ⟨-, hid, hpayload⟩ := DecodedWithDocId.mk.inj (Except.ok.inj h)
    have hshort := (drop_append_eq_iff docId payload).mp hpayload
    rw [Nat.mod_eq_of_lt hshort, List.take_length] at hid
    exact ⟨hshort, hid⟩
  · rintro ⟨hshort, hid⟩
    rw [(drop_append_eq_iff docId payload).mpr hshort, Nat.mod_eq_of_lt hshort, List.take_length,
      hid]

/-- **Messages are read back with exactly the ids of fewer than 2¹⁶ bytes in which no surrogate
stands alone and which do not start with a byte order mark.** -/
theorem worker_roundTrip_iff :
    decodeWithDocId (encodeWithDocId messageType.toNat docId payload) =
          .ok ⟨messageType.toNat, docId, payload⟩ ∧
        addDocId docId (encodeMessage messageType.toNat payload) >>= stripDocId =
          .ok (encodeMessage messageType.toNat payload) ↔
      (Utf8.encode docId).length < 0x10000 ∧ isWellFormed docId ∧
        docId.head? ≠ some byteOrderMark := by
  rw [decodeWithDocId_encodeWithDocId_iff, stripDocId_addDocId_iff]
  constructor
  · rintro ⟨h, -⟩
    exact h
  · intro h
    exact ⟨h, h.1⟩

end RoundTrip

theorem length_encode_ascii (n : ℕ) :
    (Utf8.encode (List.replicate n (ascii 'a'))).length = n := by
  induction n with
  | zero => rfl
  | succ n ih =>
    have hplain := Utf8.scalars_of_not_surrogate (c := ascii 'a') (by decide) (by decide)
    rw [List.replicate_succ, Utf8.encode, hplain, Utf8.encodeScalars, List.flatMap_cons,
      List.length_append, ← Utf8.encodeScalars, ← Utf8.encode, ih]
    exact Nat.add_comm 1 n

/-- An id of 2¹⁶ bytes is not read back; one that starts with a byte order mark is read without
it. -/
theorem docId_not_read_back :
    ¬ (decodeWithDocId (encodeWithDocId 0 (List.replicate 0x10000 (ascii 'a')) []) =
        .ok ⟨0, List.replicate 0x10000 (ascii 'a'), []⟩) ∧
      decodeWithDocId (encodeWithDocId 0 [byteOrderMark, ascii 'd'] [7]) =
        .ok ⟨0, [ascii 'd'], [7]⟩ := by
  refine ⟨fun h => ?_, by decide⟩
  have hshort := ((decodeWithDocId_encodeWithDocId_iff 0 _ []).mp h).1
  rw [length_encode_ascii] at hshort
  exact absurd hshort (lt_irrefl _)

end N8n.Crdt.WorkerProtocol
