import N8n.Common.JsString
import N8n.Common.JsonText

/-!
# UTF-8

How a text encoder writes a string of code units as bytes, and how a text decoder reads bytes. A
surrogate without its other half is written as the replacement character, as are bytes that do not
make a character when they are read. A byte order mark at the start of the bytes is not part of
what is read.

## Main definitions

* `scalars`, `ofScalars`: the characters of a string, and the string of characters
* `isWellFormed`: no surrogate stands without its other half
* `encode`, `decode`: a string as bytes, and bytes as a string

## Main results

* `decodeFrom_encodeScalars`: the bytes of characters are read as these characters
* `decode_encode_iff`: which strings are read back
-/

namespace N8n.Utf8

/-! ## Strings and characters -/

def isHighSurrogate (c : CodeUnit) : Prop := 0xD800 ≤ c.toNat ∧ c.toNat < 0xDC00

def isLowSurrogate (c : CodeUnit) : Prop := 0xDC00 ≤ c.toNat ∧ c.toNat ≤ 0xDFFF

instance (c : CodeUnit) : Decidable (isHighSurrogate c) := inferInstanceAs (Decidable (_ ∧ _))

instance (c : CodeUnit) : Decidable (isLowSurrogate c) := inferInstanceAs (Decidable (_ ∧ _))

/-- `text.isWellFormed()` -/
def isWellFormed : JsString → Bool
  | [] => true
  | [c] => ¬ isHighSurrogate c ∧ ¬ isLowSurrogate c
  | c :: d :: rest =>
    if isHighSurrogate c ∧ isLowSurrogate d then isWellFormed rest
    else (¬ isHighSurrogate c ∧ ¬ isLowSurrogate c) && isWellFormed (d :: rest)

/-- The characters of a string, with the replacement character for a lone surrogate. -/
def scalars (text : JsString) : List Char := JsonText.ofCodes (text.map UInt16.toNat)

def units (c : Char) : JsString :=
  if c.toNat < 0x10000 then [UInt16.ofNat c.toNat]
  else [UInt16.ofNat (0xD800 + (c.toNat - 0x10000) / 0x400),
    UInt16.ofNat (0xDC00 + (c.toNat - 0x10000) % 0x400)]

def ofScalars (text : List Char) : JsString := text.flatMap units

/-! ## Bytes -/

def encodeScalars (text : List Char) : List UInt8 := text.flatMap String.utf8EncodeChar

/-- `new TextEncoder().encode(text)` -/
def encode (text : JsString) : List UInt8 := encodeScalars (scalars text)

/-- A character of which some bytes are read, and what the next byte may be. -/
structure Pending where
  codePoint : ℕ
  bytesNeeded : ℕ
  lowerBoundary : ℕ
  upperBoundary : ℕ

def first (byte : ℕ) : Option Pending × List Char :=
  if byte ≤ 0x7F then (none, [Char.ofNat byte])
  else if 0xC2 ≤ byte ∧ byte ≤ 0xDF then (some ⟨byte % 0x20, 1, 0x80, 0xBF⟩, [])
  else if 0xE0 ≤ byte ∧ byte ≤ 0xEF then
    (some ⟨byte % 0x10, 2, if byte = 0xE0 then 0xA0 else 0x80,
      if byte = 0xED then 0x9F else 0xBF⟩, [])
  else if 0xF0 ≤ byte ∧ byte ≤ 0xF4 then
    (some ⟨byte % 0x08, 3, if byte = 0xF0 then 0x90 else 0x80,
      if byte = 0xF4 then 0x8F else 0xBF⟩, [])
  else (none, [JsonText.replacement])

/-- A further byte. One that does not belong to the character is the first of the next. -/
def further (st : Pending) (byte : ℕ) : Option Pending × List Char :=
  if st.lowerBoundary ≤ byte ∧ byte ≤ st.upperBoundary then
    if st.bytesNeeded = 1 then (none, [Char.ofNat (st.codePoint * 0x40 + byte % 0x40)])
    else (some ⟨st.codePoint * 0x40 + byte % 0x40, st.bytesNeeded - 1, 0x80, 0xBF⟩, [])
  else ((first byte).1, JsonText.replacement :: (first byte).2)

def decodeByte : Option Pending → ℕ → Option Pending × List Char
  | none, byte => first byte
  | some st, byte => further st byte

def decodeFrom : Option Pending → List UInt8 → List Char
  | none, [] => []
  | some _, [] => [JsonText.replacement]
  | st, byte :: bytes =>
    (decodeByte st byte.toNat).2 ++ decodeFrom (decodeByte st byte.toNat).1 bytes

def dropByteOrderMark : List Char → List Char
  | [] => []
  | c :: text => if c.toNat = 0xFEFF then text else c :: text

/-- `new TextDecoder().decode(bytes)` -/
def decode (bytes : List UInt8) : JsString :=
  ofScalars (dropByteOrderMark (decodeFrom none bytes))

/-! ## Characters through strings -/

section Scalars

variable (c : Char) (text : JsString)

theorem scalar_cases : c.toNat < 0xD800 ∨ 0xDFFF < c.toNat ∧ c.toNat < 0x110000 := c.valid

theorem toNat_unit {n : ℕ} (h : n < 0x10000) : (UInt16.ofNat n).toNat = n :=
  UInt16.toNat_ofNat_of_lt' h

theorem scalars_single {n : ℕ} (h : n < 0xD800 ∨ 0xDFFF < n) (hn : n < 0x10000) :
    scalars (UInt16.ofNat n :: text) = Char.ofNat n :: scalars text := by
  have hcode : JsonText.ofCode n = Char.ofNat n := if_neg (by omega)
  cases text with
  | nil =>
    unfold scalars
    rw [List.map_cons, toNat_unit hn]
    exact congrArg (fun c => [c]) hcode
  | cons d rest =>
    unfold scalars
    rw [List.map_cons, List.map_cons, toNat_unit hn, JsonText.ofCodes, if_neg (by omega), hcode]

theorem scalars_units_append : scalars (units c ++ text) = c :: scalars text := by
  have hc := scalar_cases c
  unfold units
  split
  next h =>
    rw [List.singleton_append, scalars_single _ (by omega) h, Char.ofNat_toNat]
  next h =>
    have hhigh : 0xD800 + (c.toNat - 0x10000) / 0x400 < 0xDC00 := by omega
    have hlow : 0xDC00 + (c.toNat - 0x10000) % 0x400 ≤ 0xDFFF := by omega
    unfold scalars
    rw [List.cons_append, List.singleton_append, List.map_cons, List.map_cons,
      toNat_unit (by omega), toNat_unit (by omega), JsonText.ofCodes, if_pos (by omega)]
    -- the two halves give the code of the character again
    have hcode : 0x10000 + (0xD800 + (c.toNat - 0x10000) / 0x400 - 0xD800) * 0x400 +
        (0xDC00 + (c.toNat - 0x10000) % 0x400 - 0xDC00) = c.toNat := by omega
    rw [hcode, Char.ofNat_toNat]

theorem scalars_ofScalars (cs : List Char) : scalars (ofScalars cs) = cs := by
  induction cs with
  | nil => rfl
  | cons c cs ih =>
    unfold ofScalars at ih ⊢
    rw [List.flatMap_cons, scalars_units_append, ih]

end Scalars

/-! ## Well-formed strings -/

section WellFormed

theorem isWellFormed_single {n : ℕ} (h : n < 0xD800 ∨ 0xDFFF < n) (hn : n < 0x10000)
    (text : JsString) : isWellFormed (UInt16.ofNat n :: text) = isWellFormed text := by
  have hhigh : ¬ isHighSurrogate (UInt16.ofNat n) := by
    unfold isHighSurrogate
    rw [toNat_unit hn]
    omega
  have hlow : ¬ isLowSurrogate (UInt16.ofNat n) := by
    unfold isLowSurrogate
    rw [toNat_unit hn]
    omega
  cases text with
  | nil => simp [isWellFormed, hhigh, hlow]
  | cons d rest => rw [isWellFormed, if_neg fun h => hhigh h.1]; simp [hhigh, hlow]

theorem isWellFormed_units_append (c : Char) (text : JsString) :
    isWellFormed (units c ++ text) = isWellFormed text := by
  have hc := scalar_cases c
  unfold units
  split
  next h => rw [List.singleton_append, isWellFormed_single (by omega) h]
  next h =>
    rw [List.cons_append, List.singleton_append, isWellFormed, if_pos]
    unfold isHighSurrogate isLowSurrogate
    rw [toNat_unit (by omega), toNat_unit (by omega)]
    omega

theorem isWellFormed_ofScalars (cs : List Char) : isWellFormed (ofScalars cs) = true := by
  induction cs with
  | nil => rfl
  | cons c cs ih =>
    unfold ofScalars at ih ⊢
    rw [List.flatMap_cons, isWellFormed_units_append, ih]

theorem toNat_ofNat {n : ℕ} (h : n < 0xD800 ∨ 0xDFFF < n ∧ n < 0x110000) :
    (Char.ofNat n).toNat = n := by
  have hvalid : n.isValidChar := h
  rw [Char.ofNat, dif_pos hvalid]
  rfl

theorem units_ofNat {c : CodeUnit} (hhigh : ¬ isHighSurrogate c) (hlow : ¬ isLowSurrogate c) :
    units (Char.ofNat c.toNat) = [c] := by
  have hlt : c.toNat < 0x10000 := c.toNat_lt
  unfold isHighSurrogate at hhigh
  unfold isLowSurrogate at hlow
  have hnat : (Char.ofNat c.toNat).toNat = c.toNat := toNat_ofNat (by omega)
  rw [units, hnat, if_pos hlt, UInt16.ofNat_toNat]

theorem units_pair {c d : CodeUnit} (hc : isHighSurrogate c) (hd : isLowSurrogate d) :
    units (Char.ofNat (0x10000 + (c.toNat - 0xD800) * 0x400 + (d.toNat - 0xDC00))) = [c, d] := by
  unfold isHighSurrogate at hc
  unfold isLowSurrogate at hd
  set n := 0x10000 + (c.toNat - 0xD800) * 0x400 + (d.toNat - 0xDC00) with hn
  have hnat : (Char.ofNat n).toNat = n := toNat_ofNat (by omega)
  have hhigh : 0xD800 + (n - 0x10000) / 0x400 = c.toNat := by omega
  have hlow : 0xDC00 + (n - 0x10000) % 0x400 = d.toNat := by omega
  rw [units, hnat, if_neg (by omega), hhigh, hlow, UInt16.ofNat_toNat, UInt16.ofNat_toNat]

theorem scalars_of_not_surrogate {c : CodeUnit} (hhigh : ¬ isHighSurrogate c)
    (hlow : ¬ isLowSurrogate c) (text : JsString) :
    scalars (c :: text) = Char.ofNat c.toNat :: scalars text := by
  have hlt : c.toNat < 0x10000 := c.toNat_lt
  unfold isHighSurrogate at hhigh
  unfold isLowSurrogate at hlow
  have hsingle := scalars_single text (n := c.toNat) (by omega) hlt
  rwa [UInt16.ofNat_toNat] at hsingle

theorem scalars_pair {c d : CodeUnit} (hc : isHighSurrogate c) (hd : isLowSurrogate d)
    (text : JsString) : scalars (c :: d :: text) =
      Char.ofNat (0x10000 + (c.toNat - 0xD800) * 0x400 + (d.toNat - 0xDC00)) :: scalars text := by
  unfold scalars
  rw [List.map_cons, List.map_cons, JsonText.ofCodes, if_pos ⟨hc.1, hc.2, hd.1, hd.2⟩]

theorem ofScalars_scalars {text : JsString} (h : isWellFormed text) :
    ofScalars (scalars text) = text := by
  induction text using isWellFormed.induct with
  | case1 => rfl
  | case2 c =>
    simp only [isWellFormed, decide_eq_true_eq] at h
    have hc : scalars [c] = [Char.ofNat c.toNat] := scalars_of_not_surrogate h.1 h.2 []
    rw [hc, ofScalars, List.flatMap_singleton, units_ofNat h.1 h.2]
  | case3 c d rest hpair ih =>
    rw [isWellFormed, if_pos hpair] at h
    rw [scalars_pair hpair.1 hpair.2, ofScalars, List.flatMap_cons, units_pair hpair.1 hpair.2]
    exact congrArg ([c, d] ++ ·) (ih h)
  | case4 c d rest hpair ih =>
    rw [isWellFormed, if_neg hpair, Bool.and_eq_true, decide_eq_true_eq] at h
    rw [scalars_of_not_surrogate h.1.1 h.1.2, ofScalars, List.flatMap_cons, units_ofNat h.1.1 h.1.2]
    exact congrArg ([c] ++ ·) (ih h.2)

end WellFormed

/-! ## Reading bytes -/

section Decoding

theorem toNat_byte {n : ℕ} (h : n < 256) : (UInt8.ofNat n).toNat = n :=
  UInt8.toNat_ofNat_of_lt' h

theorem decodeFrom_cons (st : Option Pending) (byte : UInt8) (bytes : List UInt8) :
    decodeFrom st (byte :: bytes) =
      (decodeByte st byte.toNat).2 ++ decodeFrom (decodeByte st byte.toNat).1 bytes := by
  cases st <;> rfl

/-- A byte in the middle of a character. -/
theorem decodeFrom_more {st : Pending} {n : ℕ} (hn : n < 256)
    (h : st.lowerBoundary ≤ n ∧ n ≤ st.upperBoundary) (hmore : st.bytesNeeded ≠ 1)
    (bytes : List UInt8) : decodeFrom (some st) (UInt8.ofNat n :: bytes) =
      decodeFrom (some ⟨st.codePoint * 0x40 + n % 0x40, st.bytesNeeded - 1, 0x80, 0xBF⟩) bytes := by
  rw [decodeFrom_cons, toNat_byte hn, decodeByte, further, if_pos h, if_neg hmore, List.nil_append]

theorem decodeFrom_last {st : Pending} {n : ℕ} (hn : n < 256)
    (h : st.lowerBoundary ≤ n ∧ n ≤ st.upperBoundary) (hlast : st.bytesNeeded = 1)
    (bytes : List UInt8) : decodeFrom (some st) (UInt8.ofNat n :: bytes) =
      Char.ofNat (st.codePoint * 0x40 + n % 0x40) :: decodeFrom none bytes := by
  rw [decodeFrom_cons, toNat_byte hn, decodeByte, further, if_pos h, if_pos hlast,
    List.singleton_append]

theorem decodeFrom_encodeChar (c : Char) (bytes : List UInt8) :
    decodeFrom none (String.utf8EncodeChar c ++ bytes) = c :: decodeFrom none bytes := by
  have hc := scalar_cases c
  have hv : c.val.toNat = c.toNat := rfl
  -- the encoder writes one to four bytes
  unfold String.utf8EncodeChar
  simp only [hv]
  split
  next h1 =>
    rw [List.singleton_append, decodeFrom_cons, toNat_byte (by omega), decodeByte, first,
      if_pos h1, Char.ofNat_toNat, List.singleton_append]
  split
  next h1 h2 =>
    rw [List.cons_append, List.singleton_append, decodeFrom_cons, toNat_byte (by omega), decodeByte,
      first, if_neg (by omega), if_pos (by omega), List.nil_append,
      decodeFrom_last (by omega) ⟨by simp only; omega, by simp only; omega⟩ rfl]
    have hcode : (c.toNat / 64 % 32 + 192) % 0x20 * 0x40 + (c.toNat % 64 + 128) % 0x40 =
        c.toNat := by omega
    rw [hcode, Char.ofNat_toNat]
  split
  next h1 h2 h3 =>
    rw [List.cons_append, List.cons_append, List.singleton_append, decodeFrom_cons,
      toNat_byte (by omega), decodeByte, first, if_neg (by omega), if_neg (by omega),
      if_pos (by omega), List.nil_append]
    -- the second byte is neither that of a shorter form nor that of a surrogate
    rw [decodeFrom_more (by omega) ⟨by simp only; split <;> omega, by simp only; split <;> omega⟩
      (by simp), decodeFrom_last (by omega) ⟨by simp only; omega, by simp only; omega⟩ rfl]
    have hcode : ((c.toNat / 4096 % 16 + 224) % 0x10 * 0x40 +
        (c.toNat / 64 % 64 + 128) % 0x40) * 0x40 + (c.toNat % 64 + 128) % 0x40 = c.toNat := by omega
    rw [hcode, Char.ofNat_toNat]
  next h1 h2 h3 =>
    rw [List.cons_append, List.cons_append, List.cons_append, List.singleton_append,
      decodeFrom_cons, toNat_byte (by omega), decodeByte, first, if_neg (by omega),
      if_neg (by omega), if_neg (by omega), if_pos (by omega), List.nil_append]
    rw [decodeFrom_more (by omega) ⟨by simp only; split <;> omega, by simp only; split <;> omega⟩
      (by simp), decodeFrom_more (by omega) ⟨by simp only; omega, by simp only; omega⟩ (by simp),
      decodeFrom_last (by omega) ⟨by simp only; omega, by simp only; omega⟩ rfl]
    have hcode : (((c.toNat / 262144 % 8 + 240) % 0x08 * 0x40 +
        (c.toNat / 4096 % 64 + 128) % 0x40) * 0x40 + (c.toNat / 64 % 64 + 128) % 0x40) * 0x40 +
        (c.toNat % 64 + 128) % 0x40 = c.toNat := by omega
    rw [hcode, Char.ofNat_toNat]

/-- **The bytes of characters are read as these characters.** -/
theorem decodeFrom_encodeScalars (text : List Char) :
    decodeFrom none (encodeScalars text) = text := by
  induction text with
  | nil => rfl
  | cons c text ih =>
    unfold encodeScalars at ih ⊢
    rw [List.flatMap_cons, decodeFrom_encodeChar, ih]

end Decoding

/-! ## Round trip -/

section RoundTrip

variable {text : JsString}

def byteOrderMark : CodeUnit := 0xFEFF

theorem units_byteOrderMark {c : Char} (h : c.toNat = 0xFEFF) : units c = [byteOrderMark] := by
  rw [units, h]
  rfl

theorem head?_ofScalars {c : Char} (cs : List Char)
    (h : (ofScalars (c :: cs)).head? = some byteOrderMark) : c.toNat = 0xFEFF := by
  have hscalars := scalars_ofScalars (c :: cs)
  have hc := scalar_cases c
  unfold ofScalars units at h
  rw [List.flatMap_cons] at h
  split at h
  next hlt =>
    have hn := congrArg UInt16.toNat (Option.some.inj h)
    rwa [toNat_unit hlt] at hn
  next hlt =>
    -- the first of two units is a surrogate
    have hn := congrArg UInt16.toNat (Option.some.inj h)
    rw [toNat_unit (by omega)] at hn
    change _ = 0xFEFF at hn
    omega

theorem decode_encode (text : JsString) :
    decode (encode text) = ofScalars (dropByteOrderMark (scalars text)) := by
  rw [decode, encode, decodeFrom_encodeScalars]

theorem decode_encode_of_mark {cs : List Char} {c : Char} (hc : c.toNat = 0xFEFF) :
    ofScalars (dropByteOrderMark (c :: cs)) ≠ ofScalars (c :: cs) := by
  intro h
  have hlength := congrArg List.length h
  rw [dropByteOrderMark, if_pos hc, ofScalars, ofScalars, List.flatMap_cons,
    units_byteOrderMark hc, List.length_append, List.length_singleton] at hlength
  omega

/-- **A string is read back unless a surrogate in it stands alone or it starts with a byte order
mark.** -/
theorem decode_encode_iff :
    decode (encode text) = text ↔ isWellFormed text ∧ text.head? ≠ some byteOrderMark := by
  rw [decode_encode]
  constructor
  · intro h
    have hwell : isWellFormed text := h ▸ isWellFormed_ofScalars _
    have hback := ofScalars_scalars hwell
    refine ⟨hwell, fun hhead => ?_⟩
    cases hs : scalars text with
    | nil =>
      rw [hs] at hback
      rw [← hback] at hhead
      cases hhead
    | cons c cs =>
      rw [hs] at hback h
      rw [← hback] at hhead
      exact decode_encode_of_mark (head?_ofScalars cs hhead) (h.trans hback.symm)
  · rintro ⟨hwell, hhead⟩
    have hback := ofScalars_scalars hwell
    cases hs : scalars text with
    | nil => rwa [hs] at hback
    | cons c cs =>
      rw [hs] at hback
      rw [dropByteOrderMark, if_neg, hback]
      intro hc
      rw [← hback, ofScalars, List.flatMap_cons, units_byteOrderMark hc] at hhead
      exact hhead rfl

end RoundTrip

end N8n.Utf8
