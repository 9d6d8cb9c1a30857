import Mathlib.Data.Nat.Log
import N8n.Common.Utf8

/-!
# The size of a value as JSON

`jsonSizeExceeds` tells whether the JSON of a value is longer than a limit without writing it. It
walks through the value with a stack, adds up bytes and stops once the limit is crossed. Each member
is counted with a comma, one too many for a container that is not empty. The digits of an integer
are counted by its logarithm, which floating point may round up.

## Main definitions

* `Value`, `Document`: values, and those that can be written as JSON
* `Value.text`: the JSON of a value
* `jsonSizeExceeds`: the walk
* `Value.counted`: what the walk adds up when nothing stops it
* `MeasuresExactly`: the walk measures the JSON and one byte for each container that is not empty
* `Platform.RoundsUp`: the logarithm of an integer is rounded up to the next integer

## Main results

* `Tracks.advance`: a step of the walk keeps what has been counted and what is left
* `counted_eq`: what is counted, and how much of it is not in the JSON
* `measuresExactly_iff`: exactly when the walk measures the JSON
* `not_measuresExactly`: an integer of fifteen digits is counted with sixteen
-/

namespace N8n.JsonSize

open JsonText (hexDigit)
open Utf8 (isHighSurrogate isLowSurrogate encodeScalars)

/-! ## Values -/

/-- A number that is an integer which is not written with an exponent, any other finite number with
its text, or one that is not finite. -/
inductive Number
  | integer (value : ℤ) (h : value.natAbs < 10 ^ 21)
  | formatted (text : List Char) (h : ∀ c ∈ text, c.toNat < 128)
  | nonFinite

mutual

/-- A value. Containers have an identity. -/
inductive Value
  | null
  | undefined
  | function
  | symbol
  | boolean (value : Bool)
  | number (value : Number)
  | string (value : JsString)
  | array (id : ℕ) (elements : Elements)
  | object (id : ℕ) (entries : Entries)

inductive Elements
  | nil
  | cons (value : Value) (rest : Elements)

inductive Entries
  | nil
  | cons (key : JsString) (value : Value) (rest : Entries)

end

/-- Whether serializing an object drops the entry with this value. -/
def Value.isDropped : Value → Bool
  | undefined | function | symbol => true
  | _ => false

mutual

/-- No container is inside itself or one of these. -/
def Value.AcyclicIn : List ℕ → Value → Prop
  | ancestors, .array id elements => id ∉ ancestors ∧ elements.AcyclicIn (id :: ancestors)
  | ancestors, .object id entries => id ∉ ancestors ∧ entries.AcyclicIn (id :: ancestors)
  | _, _ => True

def Elements.AcyclicIn : List ℕ → Elements → Prop
  | _, .nil => True
  | ancestors, .cons value rest => value.AcyclicIn ancestors ∧ rest.AcyclicIn ancestors

def Entries.AcyclicIn : List ℕ → Entries → Prop
  | _, .nil => True
  | ancestors, .cons _ value rest => value.AcyclicIn ancestors ∧ rest.AcyclicIn ancestors

end

/-- A value that `JSON.stringify` writes. -/
structure Document where
  value : Value
  acyclic : value.AcyclicIn []
  serialized : value.isDropped = false

/-! ## The JSON of a value -/

/-- A unit outside a pair of surrogates. A surrogate is escaped. -/
def escapeUnit (c : CodeUnit) : List Char :=
  if isHighSurrogate c ∨ isLowSurrogate c then
    ['\\', 'u', hexDigit (c.toNat / 4096), hexDigit (c.toNat / 256 % 16),
      hexDigit (c.toNat / 16 % 16), hexDigit (c.toNat % 16)]
  else JsonText.escape (Char.ofNat c.toNat)

def escapeUnits : JsString → List Char
  | [] => []
  | [c] => escapeUnit c
  | c :: d :: rest =>
    if isHighSurrogate c ∧ isLowSurrogate d then
      Char.ofNat (0x10000 + (c.toNat - 0xD800) * 0x400 + (d.toNat - 0xDC00)) :: escapeUnits rest
    else escapeUnit c ++ escapeUnits (d :: rest)

attribute [grind =] escapeUnits

def quote (text : JsString) : List Char := '"' :: (escapeUnits text ++ ['"'])

def Number.text : Number → List Char
  | integer value _ => (if value < 0 then ['-'] else []) ++ Nat.toDigits 10 value.natAbs
  | formatted text _ => text
  | nonFinite => "null".toList

def commaSeparated : List (List Char) → List Char
  | [] => []
  | [text] => text
  | text :: texts => text ++ ',' :: commaSeparated texts

mutual

/-- `JSON.stringify`, with what is written in an array for a value that an object drops. -/
def Value.text : Value → List Char
  | .null | .undefined | .function | .symbol => "null".toList
  | .boolean value => if value then "true".toList else "false".toList
  | .number value => value.text
  | .string value => quote value
  | .array _ elements => '[' :: (commaSeparated elements.texts ++ [']'])
  | .object _ entries => '\x7b' :: (commaSeparated entries.texts ++ ['\x7d'])

def Elements.texts : Elements → List (List Char)
  | .nil => []
  | .cons value rest => value.text :: rest.texts

def Entries.texts : Entries → List (List Char)
  | .nil => []
  | .cons key value rest =>
    if value.isDropped then rest.texts else (quote key ++ ':' :: value.text) :: rest.texts

end

mutual

/-- The number of the containers that are not written as empty. -/
def Value.containers : Value → ℕ
  | .array _ elements => (if elements.texts = [] then 0 else 1) + elements.containers
  | .object _ entries => (if entries.texts = [] then 0 else 1) + entries.containers
  | _ => 0

def Elements.containers : Elements → ℕ
  | .nil => 0
  | .cons value rest => value.containers + rest.containers

def Entries.containers : Entries → ℕ
  | .nil => 0
  | .cons _ value rest => value.containers + rest.containers

end

def byteLength (text : List Char) : ℕ := (encodeScalars text).length

/-! ## Sizes of strings and numbers -/

def isSurrogate (code : ℕ) : Bool := 0xD800 ≤ code && code ≤ 0xDFFF

/-- Bytes a single code unit occupies. -/
def codeUnitSize (code : ℕ) : ℕ :=
  if code = 0x22 ∨ code = 0x5C then 2
  else if code ≤ 0x1F then if code ∈ [0x08, 0x09, 0x0A, 0x0C, 0x0D] then 2 else 6
  else if code ≤ 0x7F then 1
  else if code ≤ 0x7FF then 2
  else if isSurrogate code then 6
  else 3

/-- Bytes the escaped characters occupy, added to `size`. It stops once `budget` is gone. -/
def escapedContentSize (budget : ℤ) (size : ℕ) : JsString → ℕ
  | [] => size
  | [c] => if size ≤ budget then size + codeUnitSize c.toNat else size
  | c :: d :: rest =>
    if size ≤ budget then
      if isHighSurrogate c ∧ isLowSurrogate d then escapedContentSize budget (size + 4) rest
      else escapedContentSize budget (size + codeUnitSize c.toNat) (d :: rest)
    else size

attribute [grind =] escapedContentSize

def stringSize (value : JsString) (budget : ℤ) : ℕ := 2 + escapedContentSize (budget - 2) 0 value

/-- The integer part of what `Math.log10` gives for an integer from 1 on. The result of the function
is approximate, but it is near the logarithm. -/
structure Platform where
  floorLog10 : ℕ → ℕ
  near : ∀ m, m ≠ 0 → m < 10 ^ 21 →
    floorLog10 m ≤ Nat.log 10 m + 1 ∧ Nat.log 10 m ≤ floorLog10 m + 1

/-- The logarithm of the integer is rounded up to the next integer. -/
def Platform.RoundsUp (platform : Platform) (m : ℕ) : Prop :=
  m ≠ 0 ∧ Nat.log 10 m < platform.floorLog10 m

instance (platform : Platform) : DecidablePred platform.RoundsUp := fun _ =>
  inferInstanceAs (Decidable (_ ∧ _))

section Walk

variable (platform : Platform) (maxBytes : ℤ)

/-- Digits an integer is written with. -/
def decimalDigits (magnitude : ℕ) : ℕ :=
  let digits := if magnitude < 1 then 1 else platform.floorLog10 magnitude + 1
  if magnitude < 10 ^ digits then digits else digits + 1

def numberSize : Number → ℕ
  | .integer value _ => (if value < 0 then 1 else 0) + decimalDigits platform value.natAbs
  | .formatted text _ => text.length
  | .nonFinite => 4

/-! ## The walk -/

/-- A container, and the members that are left. -/
inductive Frame
  | elements (id : ℕ) (rest : Elements)
  | entries (id : ℕ) (rest : Entries)

structure Walk where
  frames : List Frame
  ancestors : List ℕ
  size : ℕ

/-- The delimiters of a container are added, unless it is reached from inside itself. -/
def openContainer (walk : Walk) (id : ℕ) (frame : Frame) : Walk :=
  if id ∈ walk.ancestors then walk else ⟨frame :: walk.frames, id :: walk.ancestors, walk.size + 2⟩

def close (walk : Walk) (id : ℕ) : Walk :=
  { walk with frames := walk.frames.tail, ancestors := walk.ancestors.erase id }

/-- Bytes left before the limit. -/
def remaining (walk : Walk) : ℤ := maxBytes - walk.size

def addValue (walk : Walk) : Value → Walk
  | .array id elements => openContainer walk id (.elements id elements)
  | .object id entries => openContainer walk id (.entries id entries)
  | .string value => { walk with size := walk.size + stringSize value (remaining maxBytes walk) }
  | .number value => { walk with size := walk.size + numberSize platform value }
  | .boolean value => { walk with size := walk.size + if value then 4 else 5 }
  | .null | .undefined | .function | .symbol => { walk with size := walk.size + 4 }

def addEntry (walk : Walk) (key : JsString) (value : Value) : Walk :=
  if value.isDropped then walk
  else addValue platform maxBytes
    { walk with size := walk.size + (2 + stringSize key (remaining maxBytes walk)) } value

def advance (walk : Walk) : Walk :=
  match walk.frames with
  | [] => walk
  | .elements id .nil :: _ => close walk id
  | .elements id (.cons value rest) :: frames =>
    addValue platform maxBytes
      { walk with frames := .elements id rest :: frames, size := walk.size + 1 } value
  | .entries id .nil :: _ => close walk id
  | .entries id (.cons key value rest) :: frames =>
    addEntry platform maxBytes { walk with frames := .entries id rest :: frames } key value

attribute [grind =] addValue advance

/-- The loop; `fuel` bounds the number of its turns, and `none` says that it did not suffice. -/
def run : ℕ → Walk → Option Walk
  | 0, walk => if walk.frames ≠ [] ∧ walk.size ≤ maxBytes then none else some walk
  | fuel + 1, walk =>
    if walk.frames ≠ [] ∧ walk.size ≤ maxBytes then run fuel (advance platform maxBytes walk)
    else some walk

def jsonSizeExceeds (fuel : ℕ) (value : Value) : Option Bool :=
  (run platform maxBytes fuel (addValue platform maxBytes ⟨[], [], 0⟩ value)).map fun walk =>
    maxBytes < walk.size

end Walk

/-! ## Strings -/

section Strings

variable {s t : List Char} {c : Char} {n : ℕ}

theorem byteLength_append : byteLength (s ++ t) = byteLength s + byteLength t := by
  rw [byteLength, encodeScalars, List.flatMap_append, List.length_append]
  rfl

theorem byteLength_cons : byteLength (c :: t) = c.utf8Size + byteLength t := by
  rw [byteLength, encodeScalars, List.flatMap_cons, List.length_append,
    String.length_utf8EncodeChar]
  rfl

theorem utf8Size_eq (c : Char) : c.utf8Size =
    if c.toNat ≤ 0x7F then 1 else if c.toNat ≤ 0x7FF then 2
    else if c.toNat ≤ 0xFFFF then 3 else 4 :=
  rfl

theorem utf8Size_of_ascii (h : c.toNat < 128) : c.utf8Size = 1 := by
  rw [utf8Size_eq, if_pos (by omega)]

theorem byteLength_of_ascii (h : ∀ c ∈ s, c.toNat < 128) : byteLength s = s.length := by
  induction s with
  | nil => rfl
  | cons c s ih =>
    obtain ⟨hc, hs⟩ := List.forall_mem_cons.mp h
    rw [byteLength_cons, utf8Size_of_ascii hc, ih hs, List.length_cons, add_comm]

theorem toNat_hexDigit_lt (h : n < 16) : (hexDigit n).toNat < 128 := by
  interval_cases n <;> decide

/-- What `JSON.stringify` writes for a control character has two or six bytes. -/
theorem byteLength_escape_control (h : n < 32) :
    byteLength (JsonText.escape (Char.ofNat n)) = codeUnitSize n := by
  interval_cases n <;> rfl

theorem codeUnitSize_surrogate (h : 0xD800 ≤ n ∧ n ≤ 0xDFFF) : codeUnitSize n = 6 := by
  have hsurrogate : isSurrogate n = true := by simpa [isSurrogate] using h
  rw [codeUnitSize, if_neg (by omega), if_neg (by omega), if_neg (by omega), if_neg (by omega),
    if_pos hsurrogate]

/-- What is not escaped has the size of its character. -/
theorem codeUnitSize_plain (hquote : n ≠ 0x22) (hbackslash : n ≠ 0x5C) (hcontrol : ¬ n < 32)
    (hrange : n < 0xD800 ∨ 0xDFFF < n ∧ n < 0x10000) :
    codeUnitSize n = (Char.ofNat n).utf8Size := by
  have hsurrogate : ¬ isSurrogate n = true := by
    simp only [isSurrogate, Bool.and_eq_true, decide_eq_true_eq]
    omega
  rw [utf8Size_eq, Utf8.toNat_ofNat (by omega), codeUnitSize, if_neg (by omega), if_neg (by omega)]
  split_ifs <;> first | rfl | omega

/-- **A unit** is counted as it is written. -/
theorem byteLength_escapeUnit (c : CodeUnit) :
    byteLength (escapeUnit c) = codeUnitSize c.toNat := by
  have hlt : c.toNat < 0x10000 := c.toNat_lt
  by_cases hsurrogate : isHighSurrogate c ∨ isLowSurrogate c
  · have hrange : 0xD800 ≤ c.toNat ∧ c.toNat ≤ 0xDFFF := by
      unfold isHighSurrogate isLowSurrogate at hsurrogate
      omega
    rw [escapeUnit, if_pos hsurrogate, codeUnitSize_surrogate hrange, byteLength_of_ascii]
    · rfl
    · have hhex := fun n (h : n < 16) => toNat_hexDigit_lt h
      simp only [List.forall_mem_cons, List.not_mem_nil, false_imp_iff, implies_true, and_true]
      exact ⟨by decide, by decide, hhex _ (by omega), hhex _ (by omega), hhex _ (by omega),
        hhex _ (by omega)⟩
  · have hrange : c.toNat < 0xD800 ∨ 0xDFFF < c.toNat ∧ c.toNat < 0x10000 := by
      unfold isHighSurrogate isLowSurrogate at hsurrogate
      omega
    have hchar : (Char.ofNat c.toNat).toNat = c.toNat := Utf8.toNat_ofNat (by omega)
    rw [escapeUnit, if_neg hsurrogate]
    by_cases hcontrol : c.toNat < 32
    · exact byteLength_escape_control hcontrol
    by_cases hquote : c.toNat = 0x22
    · rw [hquote]
      rfl
    by_cases hbackslash : c.toNat = 0x5C
    · rw [hbackslash]
      rfl
    have hplain : JsonText.IsPlain (Char.ofNat c.toNat) := by
      refine ⟨fun h => hquote ?_, fun h => hbackslash ?_, by omega⟩
      · rw [← hchar, h]
        rfl
      · rw [← hchar, h]
        rfl
    rw [JsonText.escape_plain hplain, byteLength_cons,
      codeUnitSize_plain hquote hbackslash hcontrol hrange]
    rfl

/-- What is counted is at most what is written, and less only if it is over the budget. -/
theorem escapedContentSize_spec (budget : ℤ) (s : JsString) (size : ℕ) :
    escapedContentSize budget size s ≤ size + byteLength (escapeUnits s) ∧
      (escapedContentSize budget size s = size + byteLength (escapeUnits s) ∨
        budget < escapedContentSize budget size s) := by
  induction s using escapeUnits.induct generalizing size with
  | case1 => exact ⟨le_rfl, .inl rfl⟩
  | case2 c =>
    rw [escapedContentSize, escapeUnits, byteLength_escapeUnit]
    split_ifs with h
    · exact ⟨le_rfl, .inl rfl⟩
    · exact ⟨Nat.le_add_right _ _, .inr (not_le.mp h)⟩
  | case3 c d rest hpair ih =>
    rw [escapedContentSize, escapeUnits, if_pos hpair, if_pos hpair, byteLength_cons]
    have hsize : (Char.ofNat (0x10000 + (c.toNat - 0xD800) * 0x400 + (d.toNat - 0xDC00))).utf8Size =
        4 := by
      obtain ⟨⟨h₁, h₂⟩, h₃, h₄⟩ := hpair
      rw [utf8Size_eq, Utf8.toNat_ofNat (by omega), if_neg (by omega), if_neg (by omega),
        if_neg (by omega)]
    rw [hsize, ← add_assoc]
    split_ifs with h
    · exact ih _
    · exact ⟨by omega, .inr (not_le.mp h)⟩
  | case4 c d rest hpair ih =>
    rw [escapedContentSize, escapeUnits, if_neg hpair, if_neg hpair, byteLength_append,
      byteLength_escapeUnit, ← add_assoc]
    split_ifs with h
    · exact ih _
    · exact ⟨by omega, .inr (not_le.mp h)⟩

/-- **A string** is counted as it is written, or up to over the limit. -/
theorem stringSize_spec (s : JsString) (budget : ℤ) :
    stringSize s budget ≤ byteLength (quote s) ∧
      (stringSize s budget = byteLength (quote s) ∨ budget < stringSize s budget) := by
  have hquote : byteLength (quote s) = 2 + byteLength (escapeUnits s) := by
    rw [quote, byteLength_cons, byteLength_append, byteLength_cons]
    change 1 + (_ + (1 + 0)) = _
    omega
  obtain ⟨hle, hor⟩ := escapedContentSize_spec (budget - 2) s 0
  rw [hquote, stringSize]
  constructor
  · omega
  · rcases hor with heq | hlt
    · left; omega
    · right; push_cast; omega

end Strings

/-! ## Numbers -/

section Numbers

variable (platform : Platform)

theorem length_toDigits {m : ℕ} (h : m ≠ 0) : (Nat.toDigits 10 m).length = Nat.log 10 m + 1 := by
  have hle := fun k (hk : 0 < k) => @Nat.length_toDigits_le_iff 10 m k (by decide) hk
  apply le_antisymm
  · exact (hle _ (Nat.succ_pos _)).mpr (Nat.lt_pow_succ_log_self (by decide) m)
  · by_contra hlt
    have hpos := @Nat.length_toDigits_pos 10 m
    have hm := (hle (Nat.log 10 m) (by omega)).mp (by omega)
    exact absurd (Nat.pow_log_le_self 10 h) (not_le.mpr hm)

/-- **The digits** are counted with one more if the logarithm is rounded up. -/
theorem decimalDigits_eq {m : ℕ} (hm : m < 10 ^ 21) : decimalDigits platform m =
    (Nat.toDigits 10 m).length + if platform.RoundsUp m then 1 else 0 := by
  by_cases hzero : m = 0
  · rw [hzero, if_neg fun h => h.1 rfl]
    rfl
  obtain ⟨hupper, hlower⟩ := platform.near m hzero hm
  have hlog := Nat.pow_log_le_self 10 hzero
  have hlog' := Nat.lt_pow_succ_log_self (b := 10) (by decide) m
  rw [length_toDigits hzero, decimalDigits, if_neg (show ¬ m < 1 by omega)]
  rcases Nat.lt_trichotomy (platform.floorLog10 m) (Nat.log 10 m) with hless | heq | hmore
  · have hfloor : platform.floorLog10 m + 1 = Nat.log 10 m := by omega
    have hup : ¬ platform.RoundsUp m := fun h => absurd h.2 (by omega)
    rw [hfloor, if_neg (not_lt.mpr hlog), if_neg hup]
  · have hup : ¬ platform.RoundsUp m := fun h => absurd h.2 (by omega)
    rw [heq, if_pos hlog', if_neg hup]
  · have hfloor : platform.floorLog10 m = Nat.log 10 m + 1 := by omega
    have hup : platform.RoundsUp m := ⟨hzero, hmore⟩
    rw [hfloor, if_pos (hlog'.trans (Nat.pow_lt_pow_right (by decide) (Nat.lt_succ_self _))),
      if_pos hup]

def Number.integers : Number → List ℕ
  | integer value _ => [value.natAbs]
  | _ => []

theorem numberSize_eq (n : Number) : numberSize platform n =
    byteLength n.text + n.integers.countP platform.RoundsUp := by
  cases n with
  | nonFinite => rfl
  | formatted text h => exact (byteLength_of_ascii h).symm
  | integer value h =>
    have hdigits : byteLength (Nat.toDigits 10 value.natAbs) =
        (Nat.toDigits 10 value.natAbs).length := by
      apply byteLength_of_ascii
      intro c hc
      have hdigit := Nat.isDigit_of_mem_toDigits (by decide) (by decide) hc
      rw [Char.isDigit, Bool.and_eq_true, decide_eq_true_eq, decide_eq_true_eq] at hdigit
      have : c.toNat ≤ 57 := hdigit.2
      omega
    have hsign : byteLength (if value < 0 then ['-'] else []) = if value < 0 then 1 else 0 := by
      split_ifs <;> rfl
    rw [numberSize, decimalDigits_eq platform h, Number.text, byteLength_append, hdigits, hsign,
      Number.integers, List.countP_singleton, add_assoc]
    simp only [decide_eq_true_eq]

end Numbers

/-! ## What is counted -/

section Counted

variable (platform : Platform)

mutual

/-- What the walk adds up for a value if nothing stops it. -/
def Value.counted : Value → ℕ
  | .array _ elements => 2 + elements.counted
  | .object _ entries => 2 + entries.counted
  | .string value => byteLength (quote value)
  | .number value => numberSize platform value
  | .boolean value => if value then 4 else 5
  | .null | .undefined | .function | .symbol => 4

def Elements.counted : Elements → ℕ
  | .nil => 0
  | .cons value rest => 1 + value.counted + rest.counted

def Entries.counted : Entries → ℕ
  | .nil => 0
  | .cons key value rest =>
    (if value.isDropped then 0 else 2 + byteLength (quote key) + value.counted) + rest.counted

end

mutual

/-- The integers that are written without an exponent, without their signs. -/
def Value.integers : Value → List ℕ
  | .array _ elements => elements.integers
  | .object _ entries => entries.integers
  | .number value => value.integers
  | _ => []

def Elements.integers : Elements → List ℕ
  | .nil => []
  | .cons value rest => value.integers ++ rest.integers

def Entries.integers : Entries → List ℕ
  | .nil => []
  | .cons _ value rest => value.integers ++ rest.integers

end

def withCommas (texts : List (List Char)) : ℕ := (texts.map fun text => 1 + byteLength text).sum

theorem byteLength_commaSeparated (texts : List (List Char)) :
    byteLength (commaSeparated texts) + (if texts = [] then 0 else 1) = withCommas texts := by
  induction texts with
  | nil => rfl
  | cons text texts ih =>
    cases texts with
    | nil => simp [commaSeparated, withCommas, add_comm]
    | cons text' texts =>
      rw [if_neg (List.cons_ne_nil _ _)] at ih ⊢
      rw [commaSeparated, byteLength_append, byteLength_cons, withCommas, List.map_cons,
        List.sum_cons, ← withCommas, ← ih]
      · change _ + (1 + _) + 1 = _
        omega
      · exact List.cons_ne_nil _ _

theorem containers_of_isDropped {value : Value} (h : value.isDropped) :
    value.containers = 0 ∧ value.integers = [] := by
  cases value <;> first | exact ⟨rfl, rfl⟩ | cases h

mutual

/-- **What is counted**: the JSON, one byte for each container that is not empty, and one for each
integer whose logarithm is rounded up. -/
theorem Value.counted_eq : ∀ value : Value, value.counted platform =
    byteLength value.text + value.containers + value.integers.countP platform.RoundsUp
  | .array _ elements => by
    have h := elements.counted_eq
    have hcommas := byteLength_commaSeparated elements.texts
    rw [Value.counted, Value.text, byteLength_cons, byteLength_append, Value.containers,
      Value.integers, h, ← hcommas]
    change _ = 1 + (_ + 1) + _ + _
    omega
  | .object _ entries => by
    have h := entries.counted_eq
    have hcommas := byteLength_commaSeparated entries.texts
    rw [Value.counted, Value.text, byteLength_cons, byteLength_append, Value.containers,
      Value.integers, h, ← hcommas]
    change _ = 1 + (_ + 1) + _ + _
    omega
  | .number value => numberSize_eq platform value
  | .string _ | .null | .undefined | .function | .symbol => rfl
  | .boolean value => by cases value <;> rfl

theorem Elements.counted_eq : ∀ elements : Elements, elements.counted platform =
    withCommas elements.texts + elements.containers +
      elements.integers.countP platform.RoundsUp
  | .nil => rfl
  | .cons value rest => by
    rw [Elements.counted, value.counted_eq, rest.counted_eq, Elements.texts, Elements.containers,
      Elements.integers, List.countP_append, withCommas, withCommas, List.map_cons, List.sum_cons]
    omega

theorem Entries.counted_eq : ∀ entries : Entries, entries.counted platform =
    withCommas entries.texts + entries.containers + entries.integers.countP platform.RoundsUp
  | .nil => rfl
  | .cons key value rest => by
    rw [Entries.counted, rest.counted_eq, Entries.texts, Entries.containers, Entries.integers]
    split_ifs with hdropped
    · obtain ⟨hcontainers, hintegers⟩ := containers_of_isDropped hdropped
      rw [hcontainers, hintegers, List.nil_append]
      omega
    · rw [value.counted_eq, List.countP_append, withCommas, withCommas, List.map_cons,
        List.sum_cons, byteLength_append, byteLength_cons]
      change _ = 1 + (_ + (1 + _)) + _ + _ + _
      omega

end

end Counted

/-! ## The walk -/

section Steps

variable {platform : Platform} {maxBytes : ℤ} {walk : Walk} {whole : ℕ}

/-- What is left to count of a container. -/
def Frame.pending (platform : Platform) : Frame → ℕ
  | elements _ rest => rest.counted platform
  | entries _ rest => rest.counted platform

/-- What has been counted, and what is left. -/
def Walk.total (platform : Platform) (walk : Walk) : ℕ :=
  walk.size + (walk.frames.map (Frame.pending platform)).sum

/-- The whole is accounted for, unless the limit is crossed. -/
structure Tracks (platform : Platform) (maxBytes : ℤ) (whole : ℕ) (walk : Walk) : Prop where
  le : walk.total platform ≤ whole
  exact : walk.total platform = whole ∨ maxBytes < walk.size

def Frame.id : Frame → ℕ
  | elements id _ => id
  | entries id _ => id

def Frame.AcyclicIn (ancestors : List ℕ) : Frame → Prop
  | elements _ rest => rest.AcyclicIn ancestors
  | entries _ rest => rest.AcyclicIn ancestors

/-- The ancestors are the containers on the stack, and what is left in them comes back to none. -/
def Nested : List Frame → List ℕ → Prop
  | [], ancestors => ancestors = []
  | frame :: frames, ancestors => ∃ outer, ancestors = frame.id :: outer ∧
      frame.AcyclicIn ancestors ∧ Nested frames outer

/-- The size grows by as much as is counted, or over the limit. -/
theorem Tracks.add (h : Tracks platform maxBytes whole walk) {n full : ℕ} (hle : n ≤ full)
    (hor : n = full ∨ remaining maxBytes walk < n) :
    Tracks platform maxBytes (whole + full) { walk with size := walk.size + n } := by
  obtain ⟨hbound, hexact⟩ := h
  unfold Walk.total at hbound hexact
  unfold remaining at hor
  constructor <;> simp only [Walk.total] <;> push_cast <;> omega

theorem Tracks.openContainer (h : Tracks platform maxBytes whole walk) {id : ℕ}
    (hid : id ∉ walk.ancestors) (frame : Frame) :
    Tracks platform maxBytes (whole + (2 + frame.pending platform))
      (openContainer walk id frame) := by
  obtain ⟨hbound, hexact⟩ := h
  unfold Walk.total at hbound hexact
  rw [JsonSize.openContainer, if_neg hid]
  constructor <;> simp only [Walk.total, List.map_cons, List.sum_cons] <;> push_cast <;> omega

theorem nested_openContainer {id : ℕ} {frame : Frame} (hn : Nested walk.frames walk.ancestors)
    (hid : id ∉ walk.ancestors) (hframe : frame.id = id)
    (hacyclic : frame.AcyclicIn (id :: walk.ancestors)) :
    Nested (openContainer walk id frame).frames (openContainer walk id frame).ancestors := by
  rw [openContainer, if_neg hid]
  exact ⟨walk.ancestors, by rw [hframe], hacyclic, hn⟩

/-- A value is added. -/
theorem Tracks.addValue (h : Tracks platform maxBytes whole walk)
    (hn : Nested walk.frames walk.ancestors) {value : Value}
    (hacyclic : value.AcyclicIn walk.ancestors) :
    Tracks platform maxBytes (whole + value.counted platform)
      (addValue platform maxBytes walk value) ∧
    Nested (JsonSize.addValue platform maxBytes walk value).frames
      (JsonSize.addValue platform maxBytes walk value).ancestors := by
  cases value with
  | array id elements =>
    exact ⟨h.openContainer hacyclic.1 (.elements id elements),
      nested_openContainer hn hacyclic.1 rfl hacyclic.2⟩
  | object id entries =>
    exact ⟨h.openContainer hacyclic.1 (.entries id entries),
      nested_openContainer hn hacyclic.1 rfl hacyclic.2⟩
  | string value =>
    obtain ⟨hle, hor⟩ := stringSize_spec value (remaining maxBytes walk)
    exact ⟨h.add hle hor, hn⟩
  | _ => exact ⟨h.add le_rfl (.inl rfl), hn⟩

/-- An entry is added with its key, unless it is dropped. -/
theorem Tracks.addEntry (h : Tracks platform maxBytes whole walk)
    (hn : Nested walk.frames walk.ancestors) (key : JsString) {value : Value}
    (hacyclic : value.AcyclicIn walk.ancestors) :
    Tracks platform maxBytes (whole + if value.isDropped then 0 else
      2 + byteLength (quote key) + value.counted platform)
      (addEntry platform maxBytes walk key value) ∧
    Nested (JsonSize.addEntry platform maxBytes walk key value).frames
      (JsonSize.addEntry platform maxBytes walk key value).ancestors := by
  unfold JsonSize.addEntry
  split_ifs with hdropped
  · exact ⟨h, hn⟩
  · obtain ⟨hle, hor⟩ := stringSize_spec key (remaining maxBytes walk)
    have hkey := @Tracks.add _ _ _ _ h (2 + stringSize key (remaining maxBytes walk))
      (2 + byteLength (quote key)) (Nat.add_le_add_left hle 2)
      (hor.imp (congrArg _) fun hlt => by push_cast; omega)
    rw [← add_assoc whole]
    exact hkey.addValue hn hacyclic

theorem nested_close {frame : Frame} {frames : List Frame} {ancestors : List ℕ} {size : ℕ}
    (hn : Nested (frame :: frames) ancestors) :
    Nested (close ⟨frame :: frames, ancestors, size⟩ frame.id).frames
      (close ⟨frame :: frames, ancestors, size⟩ frame.id).ancestors := by
  obtain ⟨outer, rfl, -, hn⟩ := hn
  rw [close, List.erase_cons_head]
  exact hn

/-- **A step** keeps what has been counted and what is left. -/
theorem Tracks.advance (h : Tracks platform maxBytes whole walk)
    (hn : Nested walk.frames walk.ancestors) :
    Tracks platform maxBytes whole (advance platform maxBytes walk) ∧
      Nested (JsonSize.advance platform maxBytes walk).frames
        (JsonSize.advance platform maxBytes walk).ancestors := by
  obtain ⟨frames, ancestors, size⟩ := walk
  obtain ⟨hbound, hexact⟩ := h
  cases frames with
  | nil => exact ⟨⟨hbound, hexact⟩, hn⟩
  | cons frame frames =>
    simp only [Walk.total, List.map_cons, List.sum_cons] at hbound hexact
    -- a member is taken out of its container before it is added
    have htake : ∀ (frame' : Frame) (n full : ℕ),
        n + full + frame'.pending platform = frame.pending platform → ∃ base, whole = base + full ∧
          Tracks platform maxBytes base ⟨frame' :: frames, ancestors, size + n⟩ := by
      intro frame' n full hfull
      refine ⟨whole - full, by omega, ?_, ?_⟩ <;>
        simp only [Walk.total, List.map_cons, List.sum_cons] <;> push_cast <;> omega
    have hclose : frame.pending platform = 0 →
        Tracks platform maxBytes whole (close ⟨frame :: frames, ancestors, size⟩ frame.id) := by
      intro hzero
      constructor <;> simp only [Walk.total, close, List.tail_cons] <;> omega
    obtain ⟨outer, houter, hacyclic, hframes⟩ := hn
    cases frame with
    | elements id rest =>
      cases rest with
      | nil => exact ⟨hclose rfl, nested_close ⟨outer, houter, hacyclic, hframes⟩⟩
      | cons value rest =>
        obtain ⟨base, rfl, hbase⟩ := htake (.elements id rest) 1 (value.counted platform) rfl
        exact hbase.addValue ⟨outer, houter, hacyclic.2, hframes⟩ hacyclic.1
    | entries id rest =>
      cases rest with
      | nil => exact ⟨hclose rfl, nested_close ⟨outer, houter, hacyclic, hframes⟩⟩
      | cons key value rest =>
        obtain ⟨base, rfl, hbase⟩ := htake (.entries id rest) 0
          (if value.isDropped then 0 else 2 + byteLength (quote key) + value.counted platform)
          (by rw [zero_add]; rfl)
        exact hbase.addEntry ⟨outer, houter, hacyclic.2, hframes⟩ key hacyclic.1

/-! ### The walk ends -/

mutual

def Value.steps : Value → ℕ
  | .array _ elements => elements.steps + 1
  | .object _ entries => entries.steps + 1
  | _ => 0

def Elements.steps : Elements → ℕ
  | .nil => 0
  | .cons value rest => value.steps + rest.steps + 1

def Entries.steps : Entries → ℕ
  | .nil => 0
  | .cons _ value rest => value.steps + rest.steps + 1

end

def Frame.steps : Frame → ℕ
  | elements _ rest => rest.steps + 1
  | entries _ rest => rest.steps + 1

/-- A bound on the steps that are left: one for each member and one for closing each container. -/
def Walk.steps (walk : Walk) : ℕ := (walk.frames.map Frame.steps).sum

theorem steps_openContainer (walk : Walk) (id : ℕ) (frame : Frame) :
    (openContainer walk id frame).steps ≤ walk.steps + frame.steps := by
  unfold openContainer
  split_ifs
  · exact Nat.le_add_right _ _
  · simp only [Walk.steps, List.map_cons, List.sum_cons]
    omega

theorem steps_addValue (walk : Walk) (value : Value) :
    (addValue platform maxBytes walk value).steps ≤ walk.steps + value.steps := by
  cases value with
  | array id elements => exact steps_openContainer walk id _
  | object id entries => exact steps_openContainer walk id _
  | _ => exact le_rfl

theorem steps_advance (h : walk.frames ≠ []) :
    (advance platform maxBytes walk).steps < walk.steps := by
  obtain ⟨frames, ancestors, size⟩ := walk
  obtain ⟨frame, frames, rfl⟩ := List.exists_cons_of_ne_nil h
  have hcons : ∀ frame : Frame, ∀ size,
      (Walk.mk (frame :: frames) ancestors size).steps =
        frame.steps + (frames.map Frame.steps).sum := fun _ _ => rfl
  cases frame with
  | elements id rest =>
    cases rest with
    | nil => exact Nat.lt_add_of_pos_left (Nat.succ_pos _)
    | cons value rest =>
      refine (steps_addValue _ value).trans_lt ?_
      rw [hcons, hcons, Frame.steps, Frame.steps, Elements.steps]
      omega
  | entries id rest =>
    cases rest with
    | nil => exact Nat.lt_add_of_pos_left (Nat.succ_pos _)
    | cons key value rest =>
      have hle : (addEntry platform maxBytes ⟨.entries id rest :: frames, ancestors, size⟩ key
          value).steps ≤
            (Walk.mk (.entries id rest :: frames) ancestors size).steps + value.steps := by
        unfold addEntry
        split_ifs
        · exact Nat.le_add_right _ _
        · exact steps_addValue _ value
      refine hle.trans_lt ?_
      rw [hcons, hcons, Frame.steps, Frame.steps, Entries.steps]
      omega

/-- Where the loop ends, the size is over the limit exactly if the whole is. -/
theorem Tracks.lt_size_iff (h : Tracks platform maxBytes whole walk)
    (hdone : ¬ (walk.frames ≠ [] ∧ (walk.size : ℤ) ≤ maxBytes)) :
    maxBytes < walk.size ↔ maxBytes < whole := by
  obtain ⟨hle, hexact⟩ := h
  unfold Walk.total at hle hexact
  by_cases hnil : walk.frames = []
  · rw [hnil, List.map_nil, List.sum_nil, add_zero] at hle hexact
    omega
  · have hover : ¬ (walk.size : ℤ) ≤ maxBytes := fun hsize => hdone ⟨hnil, hsize⟩
    omega

/-- **The loop** ends, with a size over the limit exactly if the whole is. -/
theorem run_spec (h : Tracks platform maxBytes whole walk) (hn : Nested walk.frames walk.ancestors)
    {fuel : ℕ} (hfuel : walk.steps ≤ fuel) : ∃ walk', run platform maxBytes fuel walk = some walk' ∧
      (maxBytes < walk'.size ↔ maxBytes < whole) := by
  induction fuel generalizing walk with
  | zero =>
    by_cases hguard : walk.frames ≠ [] ∧ (walk.size : ℤ) ≤ maxBytes
    · exact absurd (@steps_advance platform maxBytes _ hguard.1) (by omega)
    · exact ⟨walk, if_neg hguard, h.lt_size_iff hguard⟩
  | succ fuel ih =>
    by_cases hguard : walk.frames ≠ [] ∧ (walk.size : ℤ) ≤ maxBytes
    · obtain ⟨hadvance, hnested⟩ := h.advance hn
      have hless := @steps_advance platform maxBytes _ hguard.1
      rw [run, if_pos hguard]
      exact ih hadvance hnested (by omega)
    · exact ⟨walk, if_neg hguard, h.lt_size_iff hguard⟩

end Steps

/-! ## Where the JSON is measured -/

section Documents

variable (platform : Platform) (document : Document)

/-- The walk tells whether what is counted is over the limit. -/
theorem jsonSizeExceeds_counted (maxBytes : ℤ) : ∃ steps, ∀ fuel ≥ steps,
    jsonSizeExceeds platform maxBytes fuel document.value =
      some (decide (maxBytes < document.value.counted platform)) := by
  have hempty : Tracks platform maxBytes 0 ⟨[], [], 0⟩ := ⟨le_rfl, .inl rfl⟩
  obtain ⟨htracks, hnested⟩ := hempty.addValue rfl document.acyclic
  refine ⟨(addValue platform maxBytes ⟨[], [], 0⟩ document.value).steps, fun fuel hfuel => ?_⟩
  obtain ⟨walk, hrun, hiff⟩ := run_spec htracks hnested hfuel
  rw [zero_add] at hiff
  rw [jsonSizeExceeds, hrun, Option.map_some]
  exact congrArg some (decide_eq_decide.mpr hiff)

/-- The walk measures the JSON and one byte for each container that is not empty. -/
def MeasuresExactly : Prop :=
  ∀ maxBytes : ℤ, ∃ steps, ∀ fuel ≥ steps,
    jsonSizeExceeds platform maxBytes fuel document.value =
      some (decide (maxBytes < byteLength document.value.text + document.value.containers))

variable {platform document}

theorem not_measuresExactly_of_roundsUp {m : ℕ} (hm : m ∈ document.value.integers)
    (hup : platform.RoundsUp m) : ¬ MeasuresExactly platform document := by
  intro h
  have hcounted := document.value.counted_eq platform
  have hpos : 0 < document.value.integers.countP platform.RoundsUp :=
    List.countP_pos_iff.mpr ⟨m, hm, decide_eq_true hup⟩
  -- the limit that the JSON just keeps
  set limit := byteLength document.value.text + document.value.containers with hlimit
  obtain ⟨steps, hsteps⟩ := h limit
  obtain ⟨steps', hsteps'⟩ := jsonSizeExceeds_counted platform document limit
  have heq := (hsteps _ (le_max_left steps steps')).symm.trans
    (hsteps' _ (le_max_right steps steps'))
  rw [Option.some.injEq, decide_eq_decide] at heq
  omega

/-- **The walk measures the JSON** exactly if no logarithm of an integer in it is rounded up. -/
theorem measuresExactly_iff (platform : Platform) (document : Document) :
    MeasuresExactly platform document ↔
      ∀ m ∈ document.value.integers, ¬ platform.RoundsUp m := by
  constructor
  · intro h m hm hup
    exact not_measuresExactly_of_roundsUp hm hup h
  · intro h maxBytes
    obtain ⟨steps, hsteps⟩ := jsonSizeExceeds_counted platform document maxBytes
    refine ⟨steps, fun fuel hfuel => ?_⟩
    have hzero : document.value.integers.countP platform.RoundsUp = 0 := by
      rw [List.countP_eq_zero]
      exact fun m hm hup => h m hm (of_decide_eq_true hup)
    rw [hsteps fuel hfuel, document.value.counted_eq platform, hzero, add_zero, Nat.cast_add]

end Documents

/-! ## An integer that is counted with one digit more -/

/-- Its logarithm is nearer to 15 than to the double before. -/
def fifteenNines : ℕ := 999999999999999

theorem log_fifteenNines : Nat.log 10 fifteenNines = 14 :=
  Nat.log_eq_of_pow_le_of_lt_pow (by decide) (by decide)

/-- A logarithm that is exact but for this integer. -/
def roundingUp : Platform where
  floorLog10 m := if m = fifteenNines then 15 else Nat.log 10 m
  near m _ _ := by
    split_ifs with h
    · rw [h, log_fifteenNines]
      decide
    · omega

def nines : Document where
  value := .number (.integer fifteenNines (by decide))
  acyclic := trivial
  serialized := rfl

theorem not_measuresExactly : ¬ MeasuresExactly roundingUp nines := by
  apply not_measuresExactly_of_roundsUp (m := fifteenNines) (List.mem_singleton.mpr rfl)
  have hfloor : roundingUp.floorLog10 fifteenNines = 15 := by
    simp [roundingUp]
  refine ⟨by decide, ?_⟩
  rw [log_fifteenNines, hfloor]
  decide

end N8n.JsonSize
