import Mathlib.Algebra.Order.Group.Nat
import Mathlib.Data.List.Basic

/-!
# Base64url

Bytes as characters of the URL-safe alphabet, without padding.

## Main definitions

* `digit`, `digitValue`: a character of the alphabet, and the six bits that it stands for
* `encode`, `decode`: bytes as text, and text as bytes

## Main results

* `decode_encode`: the round trip
* `length_encode_le`: the length of a text
-/

namespace N8n.Base64Url

def digit (n : ℕ) : Char :=
  if n < 26 then Char.ofNat (65 + n)
  else if n < 52 then Char.ofNat (71 + n)
  else if n < 62 then Char.ofNat (n - 4)
  else if n = 62 then '-'
  else '_'

/-- The characters `A-Z`, `a-z`, `0-9`, `-` and `_`. -/
def digitValue (c : Char) : Option ℕ :=
  if 'A' ≤ c ∧ c ≤ 'Z' then some (c.toNat - 65)
  else if 'a' ≤ c ∧ c ≤ 'z' then some (c.toNat - 71)
  else if '0' ≤ c ∧ c ≤ '9' then some (c.toNat + 4)
  else if c = '-' then some 62
  else if c = '_' then some 63
  else none

def encode : List UInt8 → List Char
  | a :: b :: c :: rest =>
    digit (a.toNat / 4) :: digit (a.toNat % 4 * 16 + b.toNat / 16) ::
      digit (b.toNat % 16 * 4 + c.toNat / 64) :: digit (c.toNat % 64) :: encode rest
  | [a, b] =>
    [digit (a.toNat / 4), digit (a.toNat % 4 * 16 + b.toNat / 16), digit (b.toNat % 16 * 4)]
  | [a] => [digit (a.toNat / 4), digit (a.toNat % 4 * 16)]
  | [] => []

/-- The bytes of digits. Bits that do not make a byte are left out. -/
def bytes : List ℕ → List UInt8
  | a :: b :: c :: d :: rest =>
    .ofNat (a * 4 + b / 16) :: .ofNat (b % 16 * 16 + c / 4) :: .ofNat (c % 4 * 64 + d) :: bytes rest
  | [a, b, c] => [.ofNat (a * 4 + b / 16), .ofNat (b % 16 * 16 + c / 4)]
  | [a, b] => [.ofNat (a * 4 + b / 16)]
  | [_] => []
  | [] => []

/-- Characters of other alphabets are skipped. -/
def decode (text : List Char) : List UInt8 := bytes (text.filterMap digitValue)

/-! ## The round trip -/

theorem digitValue_digit_of_lt : ∀ n < 64, digitValue (digit n) = some n := by decide

theorem digitValue_digit {n : ℕ} (hn : n < 64) : digitValue (digit n) = some n :=
  digitValue_digit_of_lt n hn

/-- The digits that `encode` writes. -/
def sextets : List UInt8 → List ℕ
  | a :: b :: c :: rest =>
    (a.toNat / 4) :: (a.toNat % 4 * 16 + b.toNat / 16) :: (b.toNat % 16 * 4 + c.toNat / 64) ::
      (c.toNat % 64) :: sextets rest
  | [a, b] => [a.toNat / 4, a.toNat % 4 * 16 + b.toNat / 16, b.toNat % 16 * 4]
  | [a] => [a.toNat / 4, a.toNat % 4 * 16]
  | [] => []

theorem encode_eq (bs : List UInt8) : encode bs = (sextets bs).map digit := by
  fun_induction encode bs with
  | case1 a b c rest ih => rw [sextets, ih]; rfl
  | case2 a b => rfl
  | case3 a => rfl
  | case4 => rfl

theorem lt_of_mem_sextets (bs : List UInt8) : ∀ n ∈ sextets bs, n < 64 := by
  have hbyte : ∀ a : UInt8, a.toNat < 256 := fun a => a.toNat_lt
  fun_induction sextets bs with
  | case1 a b c rest ih =>
    have ha := hbyte a
    have hb := hbyte b
    have hc := hbyte c
    intro n hn
    simp only [List.mem_cons] at hn
    obtain rfl | rfl | rfl | rfl | hn := hn
    · omega
    · omega
    · omega
    · omega
    · exact ih n hn
  | case2 a b =>
    have ha := hbyte a
    have hb := hbyte b
    intro n hn
    simp only [List.mem_cons, List.not_mem_nil, or_false] at hn
    omega
  | case3 a =>
    have ha := hbyte a
    intro n hn
    simp only [List.mem_cons, List.not_mem_nil, or_false] at hn
    omega
  | case4 => exact fun n hn => absurd hn List.not_mem_nil

theorem ofNat_eq {n : ℕ} {a : UInt8} (h : n = a.toNat) : UInt8.ofNat n = a := by
  rw [h, UInt8.ofNat_toNat]

theorem bytes_sextets (bs : List UInt8) : bytes (sextets bs) = bs := by
  have hbyte : ∀ a : UInt8, a.toNat < 256 := fun a => a.toNat_lt
  fun_induction sextets bs with
  | case1 a b c rest ih =>
    have ha := hbyte a
    have hb := hbyte b
    have hc := hbyte c
    rw [bytes, ih]
    congr 1
    · exact ofNat_eq (by omega)
    congr 1
    · exact ofNat_eq (by omega)
    congr 1
    · exact ofNat_eq (by omega)
  | case2 a b =>
    have ha := hbyte a
    have hb := hbyte b
    rw [bytes]
    congr 1
    · exact ofNat_eq (by omega)
    congr 1
    · exact ofNat_eq (by omega)
  | case3 a =>
    have ha := hbyte a
    rw [bytes]
    congr 1
    exact ofNat_eq (by omega)
  | case4 => rfl

theorem filterMap_map_digit {ns : List ℕ} (h : ∀ n ∈ ns, n < 64) :
    (ns.map digit).filterMap digitValue = ns := by
  rw [List.filterMap_map]
  refine (List.filterMap_congr fun n hn => ?_).trans List.filterMap_some
  exact digitValue_digit (h n hn)

/-- **The round trip** of bytes. -/
theorem decode_encode (bs : List UInt8) : decode (encode bs) = bs := by
  rw [decode, encode_eq, filterMap_map_digit (lt_of_mem_sextets bs), bytes_sextets]

/-- Only characters of the alphabet are written. -/
theorem isSome_digitValue {bs : List UInt8} {c : Char} (hc : c ∈ encode bs) :
    (digitValue c).isSome := by
  rw [encode_eq] at hc
  obtain ⟨n, hn, rfl⟩ := List.mem_map.mp hc
  rw [digitValue_digit (lt_of_mem_sextets bs n hn)]
  rfl

theorem length_encode_le (bs : List UInt8) : 3 * (encode bs).length ≤ 4 * bs.length + 4 := by
  fun_induction encode bs with
  | case1 a b c rest ih =>
    simp only [List.length_cons]
    omega
  | case2 a b =>
    simp only [List.length_cons, List.length_nil]
    omega
  | case3 a =>
    simp only [List.length_cons, List.length_nil]
    omega
  | case4 => exact Nat.zero_le _

theorem encode_ne_nil {bs : List UInt8} (h : bs ≠ []) : encode bs ≠ [] := by
  unfold encode
  split
  · exact List.cons_ne_nil _ _
  · exact List.cons_ne_nil _ _
  · exact List.cons_ne_nil _ _
  · exact absurd rfl h

end N8n.Base64Url
