import Mathlib.Data.List.Basic
import Mathlib.Data.List.TakeWhile

/-!
# Strings of code units

A JavaScript string is a list of 16-bit code units, which need not encode a sequence of characters.
Where the program looks at its strings unit by unit the model does too.

## Main definitions

* `JsString`: strings
* `ascii`, `js`: the unit of an ASCII character, and the string of a list of them
* `replaceFirst`: `replace` with a string as the pattern
* `isSpace`, `trim`: white space and line ends, and a string without them at its ends

## Main results

* `exists_trim`, `trim_eq`: what `trim` takes off
-/

namespace N8n

abbrev CodeUnit := UInt16

abbrev JsString := List CodeUnit

def ascii (c : Char) : CodeUnit := c.val.toUInt16

def js (text : List Char) : JsString := text.map ascii

/-- `text.replace(pattern, replacement)`, which replaces the first occurrence. -/
def replaceFirst (pattern replacement : JsString) : JsString → JsString
  | [] => if pattern = [] then replacement else []
  | c :: text =>
    if pattern <+: c :: text then replacement ++ (c :: text).drop pattern.length
    else c :: replaceFirst pattern replacement text

/-! ## White space -/

/-- White space and line terminators, the units that `\s` matches. -/
def isSpace (c : CodeUnit) : Bool :=
  (0x9 ≤ c && c ≤ 0xD) || c == 0x20 || c == 0xA0 || c == 0x1680 || (0x2000 ≤ c && c ≤ 0x200A) ||
    c == 0x2028 || c == 0x2029 || c == 0x202F || c == 0x205F || c == 0x3000 || c == 0xFEFF

def trim (text : JsString) : JsString :=
  ((text.dropWhile isSpace).reverse.dropWhile isSpace).reverse

def Blank (text : JsString) : Prop := ∀ c ∈ text, isSpace c

theorem Blank.nil : Blank [] := fun _ h => absurd h List.not_mem_nil

theorem Blank.append {a b : JsString} (ha : Blank a) (hb : Blank b) : Blank (a ++ b) := by
  intro c hc
  exact (List.mem_append.mp hc).elim (ha c) (hb c)

theorem blank_takeWhile (text : JsString) : Blank (text.takeWhile isSpace) :=
  fun _ h => List.mem_takeWhile_imp h

/-- Only white space is taken off. -/
theorem exists_trim (text : JsString) :
    ∃ a b, Blank a ∧ Blank b ∧ text = a ++ trim text ++ b := by
  refine ⟨text.takeWhile isSpace,
    ((text.dropWhile isSpace).reverse.takeWhile isSpace).reverse, blank_takeWhile _, ?_, ?_⟩
  · intro c hc
    exact blank_takeWhile _ c (List.mem_reverse.mp hc)
  · rw [trim, List.append_assoc, ← List.reverse_append, List.takeWhile_append_dropWhile,
      List.reverse_reverse, List.takeWhile_append_dropWhile]

theorem dropWhile_blank {a : JsString} (ha : Blank a) (text : JsString) :
    (a ++ text).dropWhile isSpace = text.dropWhile isSpace := by
  rw [List.dropWhile_append, List.dropWhile_eq_nil_iff.mpr ha, List.isEmpty_nil, if_pos rfl]

theorem dropWhile_of_head {text : JsString} {c : CodeUnit} (hc : text.head? = some c)
    (h : isSpace c = false) : text.dropWhile isSpace = text := by
  obtain ⟨rest, rfl⟩ := List.head?_eq_some_iff.mp hc
  rw [List.dropWhile_cons_of_neg (by simp [h])]

/-- A string between white space is taken out. -/
theorem trim_eq {a b text : JsString} {c d : CodeUnit} (ha : Blank a) (hb : Blank b)
    (hc : text.head? = some c) (hc' : isSpace c = false) (hd : text.getLast? = some d)
    (hd' : isSpace d = false) : trim (a ++ text ++ b) = text := by
  have hhead : (text ++ b).head? = some c := by
    obtain ⟨rest, rfl⟩ := List.head?_eq_some_iff.mp hc
    rfl
  have hb' : Blank b.reverse := fun c hc => hb c (List.mem_reverse.mp hc)
  rw [trim, List.append_assoc, dropWhile_blank ha, dropWhile_of_head hhead hc',
    List.reverse_append, dropWhile_blank hb',
    dropWhile_of_head (by rwa [List.head?_reverse]) hd', List.reverse_reverse]

theorem trim_eq_nil {text : JsString} : trim text = [] ↔ Blank text := by
  constructor
  · intro h
    obtain ⟨a, b, ha, hb, he⟩ := exists_trim text
    rw [he, h, List.append_nil]
    exact ha.append hb
  · intro h
    rw [trim, List.dropWhile_eq_nil_iff.mpr h]
    rfl

end N8n
