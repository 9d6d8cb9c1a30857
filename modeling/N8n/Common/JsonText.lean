import Mathlib.Algebra.Field.Rat
import Mathlib.Tactic.IntervalCases
import N8n.Common.JsonValue
import N8n.Foundations.OrderedMap

/-!
# JSON texts

How `JSON.stringify` writes a string, and how `JSON.parse` reads a text. A value is read with a
bound on its depth and on the number of its members, which the length of the text is. Numbers are
read exactly. An escaped surrogate without its other half is read as the replacement character, as
strings of the model are made of characters. A later field of a name takes the place of an earlier
one.

## Main definitions

* `quote`: a string literal
* `stringBody`, `number`, `value`: what is read first from a text, and the rest
* `parse`: a text

## Main results

* `stringBody_quote`, `value_quote`: a string literal is read back
* `members_comma`, `members_close`: a member of an object is read
-/

namespace N8n.JsonText

open OrderedMap (Entries.upsert)

/-! ## Writing strings -/

def hexDigit (n : ℕ) : Char := if n < 10 then Char.ofNat (48 + n) else Char.ofNat (87 + n)

def escape (c : Char) : List Char :=
  if c = '"' then ['\\', '"']
  else if c = '\\' then ['\\', '\\']
  else if c.toNat = 8 then ['\\', 'b']
  else if c.toNat = 9 then ['\\', 't']
  else if c.toNat = 10 then ['\\', 'n']
  else if c.toNat = 12 then ['\\', 'f']
  else if c.toNat = 13 then ['\\', 'r']
  else if c.toNat < 32 then ['\\', 'u', '0', '0', hexDigit (c.toNat / 16), hexDigit (c.toNat % 16)]
  else [c]

def quote (s : String) : List Char := '"' :: (s.toList.flatMap escape ++ ['"'])

/-! ## Reading -/

def isWhitespace (c : Char) : Bool := c = ' ' || c = '\t' || c = '\n' || c = '\r'

def skip (text : List Char) : List Char := text.dropWhile isWhitespace

def hexValue (c : Char) : Option ℕ :=
  if '0' ≤ c ∧ c ≤ '9' then some (c.toNat - 48)
  else if 'a' ≤ c ∧ c ≤ 'f' then some (c.toNat - 87)
  else if 'A' ≤ c ∧ c ≤ 'F' then some (c.toNat - 55)
  else none

def codeUnit (a b c d : Char) : Option ℕ :=
  match hexValue a, hexValue b, hexValue c, hexValue d with
  | some a, some b, some c, some d => some (((a * 16 + b) * 16 + c) * 16 + d)
  | _, _, _, _ => none

def replacement : Char := Char.ofNat 0xFFFD

def ofCode (n : ℕ) : Char := if 0xD800 ≤ n ∧ n ≤ 0xDFFF then replacement else Char.ofNat n

/-- The characters of codes, two of which may be the surrogates of one character. -/
def ofCodes : List ℕ → List Char
  | [] => []
  | [n] => [ofCode n]
  | high :: low :: rest =>
    if 0xD800 ≤ high ∧ high < 0xDC00 ∧ 0xDC00 ≤ low ∧ low ≤ 0xDFFF then
      Char.ofNat (0x10000 + (high - 0xD800) * 0x400 + (low - 0xDC00)) :: ofCodes rest
    else ofCode high :: ofCodes (low :: rest)

def stringCodes : List Char → Option (List ℕ × List Char)
  | [] => none
  | '"' :: rest => some ([], rest)
  | '\\' :: 'u' :: a :: b :: c :: d :: rest =>
    match codeUnit a b c d with
    | none => none
    | some n => (stringCodes rest).map fun s => (n :: s.1, s.2)
  | '\\' :: c :: rest =>
    match c with
    | '"' => (stringCodes rest).map fun s => (34 :: s.1, s.2)
    | '\\' => (stringCodes rest).map fun s => (92 :: s.1, s.2)
    | '/' => (stringCodes rest).map fun s => (47 :: s.1, s.2)
    | 'b' => (stringCodes rest).map fun s => (8 :: s.1, s.2)
    | 'f' => (stringCodes rest).map fun s => (12 :: s.1, s.2)
    | 'n' => (stringCodes rest).map fun s => (10 :: s.1, s.2)
    | 'r' => (stringCodes rest).map fun s => (13 :: s.1, s.2)
    | 't' => (stringCodes rest).map fun s => (9 :: s.1, s.2)
    | _ => none
  | c :: rest =>
    if c = '\\' ∨ c.toNat < 32 then none
    else (stringCodes rest).map fun s => (c.toNat :: s.1, s.2)

/-- The rest of a string literal. -/
def stringBody (text : List Char) : Option (String × List Char) :=
  (stringCodes text).map fun s => (String.ofList (ofCodes s.1), s.2)

/-! ## Values -/

def isDigit (c : Char) : Bool := '0' ≤ c && c ≤ '9'

def ofDigits (digits : List Char) : ℕ := digits.foldl (fun n c => n * 10 + (c.toNat - 48)) 0

def digits (text : List Char) : Option (List Char × List Char) :=
  if text.takeWhile isDigit = [] then none
  else some (text.takeWhile isDigit, text.dropWhile isDigit)

/-- The digits of an integer do not start with a zero, unless it is zero. -/
def integer : List Char → Option (ℕ × List Char)
  | '0' :: rest => some (0, rest)
  | text => (digits text).map fun d => (ofDigits d.1, d.2)

def fraction : List Char → Option (ℚ × List Char)
  | '.' :: rest => (digits rest).map fun d => ((ofDigits d.1 : ℚ) / 10 ^ d.1.length, d.2)
  | text => some (0, text)

def signedExponent : List Char → Option (ℚ × List Char)
  | '-' :: rest => (digits rest).map fun d => (1 / 10 ^ ofDigits d.1, d.2)
  | '+' :: rest => (digits rest).map fun d => (10 ^ ofDigits d.1, d.2)
  | text => (digits text).map fun d => (10 ^ ofDigits d.1, d.2)

def exponent : List Char → Option (ℚ × List Char)
  | 'e' :: rest => signedExponent rest
  | 'E' :: rest => signedExponent rest
  | text => some (1, text)

def unsigned (text : List Char) : Option (ℚ × List Char) :=
  (integer text).bind fun i =>
    (fraction i.2).bind fun f =>
      (exponent f.2).map fun e => ((i.1 + f.1) * e.1, e.2)

def number : List Char → Option (ℚ × List Char)
  | '-' :: rest => (unsigned rest).map fun n => (-n.1, n.2)
  | text => unsigned text

mutual

def value : ℕ → List Char → Option (JsonValue × List Char)
  | 0, _ => none
  | n + 1, text =>
    match skip text with
    | 'n' :: 'u' :: 'l' :: 'l' :: rest => some (.null, rest)
    | 't' :: 'r' :: 'u' :: 'e' :: rest => some (.bool true, rest)
    | 'f' :: 'a' :: 'l' :: 's' :: 'e' :: rest => some (.bool false, rest)
    | '"' :: rest => (stringBody rest).map fun s => (.string s.1, s.2)
    | '[' :: rest =>
      match skip rest with
      | ']' :: rest => some (.array [], rest)
      | rest => (items n rest).map fun vs => (.array vs.1, vs.2)
    | '{' :: rest =>
      match skip rest with
      | '}' :: rest => some (.object [], rest)
      | rest => (members n rest []).map fun fields => (.object fields.1, fields.2)
    | text => (number text).map fun q => (.number q.1, q.2)

def items : ℕ → List Char → Option (List JsonValue × List Char)
  | 0, _ => none
  | n + 1, text =>
    match value n text with
    | none => none
    | some (v, rest) =>
      match skip rest with
      | ']' :: rest => some ([v], rest)
      | ',' :: rest => (items n rest).map fun vs => (v :: vs.1, vs.2)
      | _ => none

def members : ℕ → List Char → List (String × JsonValue) →
    Option (List (String × JsonValue) × List Char)
  | 0, _, _ => none
  | n + 1, text, fields =>
    match skip text with
    | '"' :: rest =>
      match stringBody rest with
      | none => none
      | some (name, rest) =>
        match skip rest with
        | ':' :: rest =>
          match value n rest with
          | none => none
          | some (v, rest) =>
            match skip rest with
            | '}' :: rest => some (Entries.upsert name v fields, rest)
            | ',' :: rest => members n rest (Entries.upsert name v fields)
            | _ => none
        | _ => none
    | _ => none

end

def parse (text : List Char) : Option JsonValue :=
  match value (text.length + 1) text with
  | some (v, rest) => if skip rest = [] then some v else none
  | none => none

/-! ## Reading what was written -/

/-- A character that a literal holds as it is. -/
def IsPlain (c : Char) : Prop := c ≠ '"' ∧ c ≠ '\\' ∧ 32 ≤ c.toNat

theorem stringCodes_plain {c : Char} (hc : IsPlain c) (rest : List Char) :
    stringCodes (c :: rest) = (stringCodes rest).map fun s => (c.toNat :: s.1, s.2) := by
  obtain ⟨hquote, hbackslash, hcontrol⟩ := hc
  rw [stringCodes]
  · exact if_neg (not_or.mpr ⟨hbackslash, not_lt.mpr hcontrol⟩)
  · exact hquote
  · exact fun _ _ _ _ _ heq => absurd heq hbackslash
  · exact fun _ _ heq => absurd heq hbackslash

theorem escape_plain {c : Char} (hc : IsPlain c) : escape c = [c] := by
  obtain ⟨hquote, hbackslash, hcontrol⟩ := hc
  unfold escape
  rw [if_neg hquote, if_neg hbackslash, if_neg (by omega), if_neg (by omega), if_neg (by omega),
    if_neg (by omega), if_neg (by omega), if_neg (by omega)]

theorem stringCodes_control {n : ℕ} (hn : n < 32) (rest : List Char) :
    stringCodes (escape (Char.ofNat n) ++ rest) =
      (stringCodes rest).map fun s => ((Char.ofNat n).toNat :: s.1, s.2) := by
  interval_cases n <;> rfl

theorem stringCodes_escape (c : Char) (rest : List Char) :
    stringCodes (escape c ++ rest) = (stringCodes rest).map fun s => (c.toNat :: s.1, s.2) := by
  by_cases hcontrol : c.toNat < 32
  · have h := stringCodes_control hcontrol rest
    rwa [Char.ofNat_toNat] at h
  by_cases hquote : c = '"'
  · rw [hquote]
    rfl
  by_cases hbackslash : c = '\\'
  · rw [hbackslash]
    rfl
  · have hplain : IsPlain c := ⟨hquote, hbackslash, not_lt.mp hcontrol⟩
    rw [escape_plain hplain]
    exact stringCodes_plain hplain rest

theorem stringCodes_escapes (s rest : List Char) :
    stringCodes (s.flatMap escape ++ '"' :: rest) = some (s.map Char.toNat, rest) := by
  induction s with
  | nil => rfl
  | cons c s ih =>
    rw [List.flatMap_cons, List.append_assoc, stringCodes_escape, ih]
    rfl

/-- No character is a surrogate. -/
theorem ofCode_toNat (c : Char) : ofCode c.toNat = c := by
  have hvalid : ¬ (0xD800 ≤ c.toNat ∧ c.toNat ≤ 0xDFFF) := by
    have h : c.toNat < 0xD800 ∨ 0xDFFF < c.toNat ∧ c.toNat < 0x110000 := c.valid
    omega
  rw [ofCode, if_neg hvalid, Char.ofNat_toNat]

theorem ofCodes_toNat : ∀ s : List Char, ofCodes (s.map Char.toNat) = s
  | [] => rfl
  | [c] => congrArg (fun c => [c]) (ofCode_toNat c)
  | c :: d :: s => by
    have hvalid : ¬ (0xD800 ≤ c.toNat ∧ c.toNat < 0xDC00 ∧ 0xDC00 ≤ d.toNat ∧
        d.toNat ≤ 0xDFFF) := by
      have h : d.toNat < 0xD800 ∨ 0xDFFF < d.toNat ∧ d.toNat < 0x110000 := d.valid
      omega
    have ih := ofCodes_toNat (d :: s)
    rw [List.map_cons] at ih
    rw [List.map_cons, List.map_cons, ofCodes, if_neg hvalid, ofCode_toNat, ih]

/-- **A string literal is read back.** -/
theorem stringBody_quote (s : String) (rest : List Char) :
    ∃ body, quote s ++ rest = '"' :: body ∧ stringBody body = some (s, rest) := by
  refine ⟨s.toList.flatMap escape ++ '"' :: rest, ?_, ?_⟩
  · rw [quote, List.cons_append, List.append_assoc]
    rfl
  · rw [stringBody, stringCodes_escapes, Option.map_some, ofCodes_toNat, String.ofList_toList]

theorem value_quote (n : ℕ) (s : String) (rest : List Char) :
    value (n + 1) (quote s ++ rest) = some (.string s, rest) := by
  obtain ⟨body, hbody, hread⟩ := stringBody_quote s rest
  have hskip : skip ('"' :: body) = '"' :: body := rfl
  rw [hbody, value, hskip]
  exact congrArg (Option.map fun s => (JsonValue.string s.1, s.2)) hread

theorem quote_plain {s : String} (hs : ∀ c ∈ s.toList, IsPlain c) :
    quote s = '"' :: (s.toList ++ ['"']) := by
  have hescape : s.toList.flatMap escape = s.toList := by
    rw [List.flatMap_def, List.map_congr_left fun c hc => escape_plain (hs c hc),
      ← List.flatMap_def, List.flatMap_singleton']
  rw [quote, hescape]

section Members

variable {n : ℕ} {v : JsonValue} {text rest : List Char} (fields : List (String × JsonValue))

/-- A member that another one follows. -/
theorem members_comma (name : String) (hv : value n text = some (v, ',' :: rest)) :
    members (n + 1) (quote name ++ ':' :: text) fields =
      members n rest (Entries.upsert name v fields) := by
  obtain ⟨body, hbody, hread⟩ := stringBody_quote name (':' :: text)
  have hskip : skip ('"' :: body) = '"' :: body := rfl
  have hcolon : skip (':' :: text) = ':' :: text := rfl
  have hcomma : skip (',' :: rest) = ',' :: rest := rfl
  rw [hbody]
  simp only [members, hskip, hread, hcolon, hv, hcomma]

/-- The last member. -/
theorem members_close (name : String) (hv : value n text = some (v, '}' :: rest)) :
    members (n + 1) (quote name ++ ':' :: text) fields =
      some (Entries.upsert name v fields, rest) := by
  obtain ⟨body, hbody, hread⟩ := stringBody_quote name (':' :: text)
  have hskip : skip ('"' :: body) = '"' :: body := rfl
  have hcolon : skip (':' :: text) = ':' :: text := rfl
  have hbrace : skip ('}' :: rest) = '}' :: rest := rfl
  rw [hbody]
  simp only [members, hskip, hread, hcolon, hv, hbrace]

theorem value_object {fields : List (String × JsonValue)} {name : String}
    (h : members n (quote name ++ text) [] = some (fields, rest)) :
    value (n + 1) ('{' :: (quote name ++ text)) = some (.object fields, rest) := by
  obtain ⟨body, hbody, -⟩ := stringBody_quote name text
  have hskip : skip ('{' :: '"' :: body) = '{' :: '"' :: body := rfl
  have hquote : skip ('"' :: body) = '"' :: body := rfl
  rw [hbody] at h ⊢
  simp only [value, hskip, hquote]
  exact congrArg (Option.map fun fields => (JsonValue.object fields.1, fields.2)) h

end Members

theorem parse_eq {text : List Char} {v : JsonValue}
    (h : value (text.length + 1) text = some (v, [])) : parse text = some v := by
  rw [parse, h]
  rfl

end N8n.JsonText
