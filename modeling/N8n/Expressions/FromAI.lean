import N8n.Common.JsString
import Mathlib.Data.Option.Basic

/-!
# Calls of `$fromAI` alone

A chat hub tool may have an expression for a parameter only if that expression is one call of
`$fromAI` with literal arguments. `isFromAIOnlyExpression` decides this by a walk over the text
between the parentheses, which stays out of quotes and admits the units of literals only.

## Main definitions

* `isFromAIOnlyExpression`: the check
* `Token`, `readTokens`: what stands between the parentheses, read as words, commas and strings
* `ReadsAs s name tokens`: the expression is a call by that name with those tokens

## Main results

* `isFromAIOnlyExpression_iff`: the check accepts what reads as a call with some tokens
-/

namespace N8n.FromAI

/-! ## The check -/

def autoGeneratedMarker : JsString := js "/*n8n-auto-generated-fromAI-override*/".toList

def isDigit (c : CodeUnit) : Bool := ascii '0' ≤ c && c ≤ ascii '9'

/-- `[a-zA-Z0-9]` -/
def isAlphanumeric (c : CodeUnit) : Bool :=
  (ascii 'a' ≤ c && c ≤ ascii 'z') || (ascii 'A' ≤ c && c ≤ ascii 'Z') || isDigit c

/-- The units of a word: `[a-zA-Z0-9.-]`. -/
def isWordUnit (c : CodeUnit) : Bool := isAlphanumeric c || c == ascii '.' || c == ascii '-'

def quoteChars : List CodeUnit := [ascii '"', ascii '\'', ascii '`']

def backslash : CodeUnit := ascii '\\'

def stripSign (str : JsString) : JsString := if js ['='] <+: str then str.drop 1 else str

def stripDelimiters (str : JsString) : JsString :=
  if js ['{', '{'] <+: str ∧ js ['}', '}'] <:+ str then trim ((str.drop 2).take (str.length - 4))
  else str

def stripMarker (str : JsString) : JsString :=
  if autoGeneratedMarker <+: str then trim (str.drop autoGeneratedMarker.length) else str

/-- The expression without the `=`, the delimiters and the marker. -/
def strip (expr : JsString) : JsString := stripMarker (stripDelimiters (trim (stripSign expr)))

/-- A letter in lower case. -/
def lower (c : CodeUnit) : CodeUnit := if ascii 'A' ≤ c && c ≤ ascii 'Z' then c + 32 else c

/-- `/^\$fromAI\s*\(/i`: the name, and what follows the opening parenthesis. -/
def execFromAI (str : JsString) : Option (JsString × JsString) :=
  let name := str.take 7
  if name.map lower = js "$fromai".toList then
    match (str.drop 7).dropWhile isSpace with
    | [] => none
    | char :: rest => if char = ascii '(' then some (name, rest) else none
  else none

/-- The walk to the closing parenthesis: what follows it, or `none` where the walk returns false or
comes to the end. `quoteChar` is `none` outside quotes. -/
def walk : Option CodeUnit → Option CodeUnit → JsString → Option JsString
  | _, _, [] => none
  | some _, _, [_] => none
  | some quoteChar, lastOutsideChar, char :: next :: rest =>
    if char = backslash then walk (some quoteChar) lastOutsideChar rest
    -- interpolation
    else if quoteChar = ascii '`' ∧ char = ascii '$' ∧ next = ascii '{' then none
    else if char = quoteChar then walk none lastOutsideChar (next :: rest)
    else walk (some quoteChar) lastOutsideChar (next :: rest)
  | none, lastOutsideChar, char :: rest =>
    if char ∈ quoteChars then
      -- a tagged template
      if char = ascii '`' ∧ lastOutsideChar.any fun c => isAlphanumeric c || c == ascii '_' then none
      else walk (some char) (some char) rest
    else if char = ascii ')' then some rest
    else if isWordUnit char || char == ascii ',' || isSpace char then
      walk none (if isSpace char then lastOutsideChar else some char) rest
    else none

attribute [grind =] walk

def isFromAIOnlyExpression (expr : JsString) : Bool :=
  match execFromAI (strip expr) with
  | none => false
  | some (_, rest) =>
    match walk none none rest with
    | none => false
    | some remainder => trim remainder = []

/-! ## Tokens -/

inductive Token
  | comma
  | word (text : JsString)
  | quoted (quote : CodeUnit) (text : JsString)
  deriving DecidableEq

/-- The text up to the closing quote, and what follows it. -/
def readQuoted (quote : CodeUnit) : JsString → Option (JsString × JsString)
  | [] => none
  | [_] => none
  | char :: next :: rest =>
    if char = backslash then
      (readQuoted quote rest).map fun (text, after) => (char :: next :: text, after)
    else if quote = ascii '`' ∧ char = ascii '$' ∧ next = ascii '{' then none
    else if char = quote then some ([], next :: rest)
    else (readQuoted quote (next :: rest)).map fun (text, after) => (char :: text, after)

attribute [grind =] readQuoted

theorem eq_of_readQuoted {quote : CodeUnit} {s text rest : JsString}
    (h : readQuoted quote s = some (text, rest)) : s = text ++ quote :: rest := by
  induction s using readQuoted.induct quote generalizing text with
  | case1 => cases h
  | case2 => cases h
  | case3 next after ih =>
    rw [readQuoted, if_pos rfl] at h
    obtain ⟨⟨t, a⟩, hr, he⟩ := Option.map_eq_some_iff.mp h
    cases he
    rw [ih hr, List.cons_append, List.cons_append]
  | case4 char next after hchar hinter =>
    rw [readQuoted, if_neg hchar, if_pos hinter] at h
    cases h
  | case5 next after hchar hinter =>
    rw [readQuoted, if_neg hchar, if_neg hinter, if_pos rfl] at h
    obtain ⟨rfl, rfl⟩ := Prod.mk.inj (Option.some.inj h)
    rfl
  | case6 char next after hchar hinter hquote ih =>
    rw [readQuoted, if_neg hchar, if_neg hinter, if_neg hquote] at h
    obtain ⟨⟨t, a⟩, hr, he⟩ := Option.map_eq_some_iff.mp h
    cases he
    rw [ih hr, List.cons_append]

theorem length_readQuoted {quote : CodeUnit} {s text after : JsString}
    (h : readQuoted quote s = some (text, after)) : after.length < s.length := by
  rw [eq_of_readQuoted h, List.length_append, List.length_cons]
  omega

/-- The tokens up to the closing parenthesis, which only white space may follow. -/
def readTokens (last : Option CodeUnit) (s : JsString) : Option (List Token) :=
  match s with
  | [] => none
  | char :: rest =>
    if isSpace char then readTokens last rest
    else if char = ascii ')' then if trim rest = [] then some [] else none
    else if char = ascii ',' then (readTokens (some char) rest).map (Token.comma :: ·)
    else if isWordUnit char then
      (readTokens (char :: rest.takeWhile isWordUnit).getLast? (rest.dropWhile isWordUnit)).map
        (Token.word (char :: rest.takeWhile isWordUnit) :: ·)
    else if char ∉ quoteChars then none
    else if char = ascii '`' ∧ last.any fun c => isAlphanumeric c || c == ascii '_' then none
    else
      match _h : readQuoted char rest with
      | none => none
      | some (text, after) => (readTokens (some char) after).map (Token.quoted char text :: ·)
termination_by s.length
decreasing_by
  · simp
  · simp
  · simp only [List.length_cons]
    have := List.length_dropWhile_le isWordUnit rest
    omega
  · simp only [List.length_cons]
    have := length_readQuoted _h
    omega

attribute [grind =] readTokens

/-! ## Kinds of units -/

section Units

variable {c : CodeUnit}

theorem not_isSpace_of_isWordUnit (h : isWordUnit c) : isSpace c = false := by
  by_contra hs
  simp only [isWordUnit, isAlphanumeric, isDigit, isSpace, ascii, Bool.or_eq_true,
    Bool.and_eq_true, decide_eq_true_eq, beq_iff_eq, Bool.not_eq_false, UInt16.le_iff_toNat_le,
    ← UInt16.toNat_inj] at h hs
  simp at h hs
  omega

theorem ne_of_isWordUnit {d : CodeUnit} (h : isWordUnit c) (hd : isWordUnit d = false) : c ≠ d := by
  rintro rfl
  rw [h] at hd
  cases hd

theorem not_mem_quoteChars (h : isWordUnit c) : c ∉ quoteChars := by
  intro hc
  simp only [quoteChars, List.mem_cons, List.not_mem_nil, or_false] at hc
  rcases hc with hc | hc | hc <;> exact ne_of_isWordUnit h (by decide) hc

theorem not_mem_quoteChars_of_isSpace (h : isSpace c) : c ∉ quoteChars := by
  rintro hc
  simp only [quoteChars, List.mem_cons, List.not_mem_nil, or_false] at hc
  rcases hc with rfl | rfl | rfl <;> exact absurd h (by decide)

theorem ne_of_isSpace {d : CodeUnit} (h : isSpace c) (hd : isSpace d = false) : c ≠ d := by
  rintro rfl
  rw [h] at hd
  cases hd

end Units

/-! ## The walk reads tokens -/

section Walk

variable {last : Option CodeUnit} {rest : JsString} {c : CodeUnit}

theorem walk_quoted (quote : CodeUnit) (s : JsString) :
    walk (some quote) last s = (readQuoted quote s).bind fun p => walk none last p.2 := by
  induction s using readQuoted.induct quote with
  | case1 => rfl
  | case2 => rfl
  | case3 next rest ih =>
    rw [walk, if_pos rfl, ih, readQuoted, if_pos rfl, Option.bind_map]
    rfl
  | case4 char next rest hchar hinter =>
    rw [walk, if_neg hchar, if_pos hinter, readQuoted, if_neg hchar, if_pos hinter]
    rfl
  | case5 next rest hchar hinter =>
    rw [walk, if_neg hchar, if_neg hinter, if_pos rfl, readQuoted, if_neg hchar, if_neg hinter,
      if_pos rfl]
    rfl
  | case6 char next rest hchar hinter hquote ih =>
    rw [walk, if_neg hchar, if_neg hinter, if_neg hquote, ih, readQuoted, if_neg hchar,
      if_neg hinter, if_neg hquote, Option.bind_map]
    rfl

theorem walk_space (h : isSpace c) : walk none last (c :: rest) = walk none last rest := by
  rw [walk, if_neg (not_mem_quoteChars_of_isSpace h), if_neg (ne_of_isSpace h (by decide)), h,
    Bool.or_true, if_pos rfl, if_pos rfl]

theorem walk_comma : walk none last (ascii ',' :: rest) = walk none (some (ascii ',')) rest := by
  rw [walk, if_neg (by decide), if_neg (by decide), if_pos (by decide), if_neg (by decide)]

theorem walk_wordUnit (h : isWordUnit c) :
    walk none last (c :: rest) = walk none (some c) rest := by
  rw [walk, if_neg (not_mem_quoteChars h), if_neg (ne_of_isWordUnit h (by decide)),
    if_pos (by simp [h]), if_neg (by simp [not_isSpace_of_isWordUnit h])]

theorem walk_word {w : JsString} (hw : ∀ c ∈ w, isWordUnit c) (c : CodeUnit) :
    walk none (some c) (w ++ rest) = walk none (c :: w).getLast? rest := by
  induction w generalizing c with
  | nil => rfl
  | cons d w ih =>
    obtain ⟨hd, hw⟩ := List.forall_mem_cons.mp hw
    rw [List.cons_append, walk_wordUnit hd, ih hw, List.getLast?_cons_cons]

theorem readTokens_space (h : isSpace c) : readTokens last (c :: rest) = readTokens last rest := by
  rw [readTokens, if_pos h]

theorem readTokens_close :
    readTokens last (ascii ')' :: rest) = if trim rest = [] then some [] else none := by
  rw [readTokens, if_neg (by decide), if_pos rfl]

theorem readTokens_comma : readTokens last (ascii ',' :: rest) =
    (readTokens (some (ascii ',')) rest).map (Token.comma :: ·) := by
  rw [readTokens, if_neg (by decide), if_neg (by decide), if_pos rfl]

theorem readTokens_word (h : isWordUnit c) : readTokens last (c :: rest) =
    (readTokens (c :: rest.takeWhile isWordUnit).getLast? (rest.dropWhile isWordUnit)).map
      (Token.word (c :: rest.takeWhile isWordUnit) :: ·) := by
  rw [readTokens, if_neg (by simp [not_isSpace_of_isWordUnit h]),
    if_neg (ne_of_isWordUnit h (by decide)), if_neg (ne_of_isWordUnit h (by decide)), if_pos h]

/-- A quote opens a string, unless it makes a tagged template. -/
theorem readTokens_quote {quote : CodeUnit} (h : quote ∈ quoteChars) :
    readTokens last (quote :: rest) =
      if quote = ascii '`' ∧ last.any fun c => isAlphanumeric c || c == ascii '_' then none
      else (readQuoted quote rest).bind fun p =>
        (readTokens (some quote) p.2).map (Token.quoted quote p.1 :: ·) := by
  have hnot : isSpace quote = false ∧ quote ≠ ascii ')' ∧ quote ≠ ascii ',' ∧
      isWordUnit quote = false := by
    simp only [quoteChars, List.mem_cons, List.not_mem_nil, or_false] at h
    rcases h with rfl | rfl | rfl <;> decide
  rw [readTokens, if_neg (by simp [hnot.1]), if_neg hnot.2.1, if_neg hnot.2.2.1,
    if_neg (by simp [hnot.2.2.2]), if_neg (not_not.mpr h)]
  split_ifs
  · rfl
  · cases readQuoted quote rest <;> rfl

/-- The walk comes to the closing parenthesis, with white space after it, where tokens are read. -/
theorem walk_iff (last : Option CodeUnit) (s : JsString) :
    (∃ remainder, walk none last s = some remainder ∧ trim remainder = []) ↔
      ∃ ts, readTokens last s = some ts := by
  induction last, s using readTokens.induct with
  | case1 last => simp [walk, readTokens]
  | case2 last char rest hspace ih => rw [walk_space hspace, readTokens_space hspace, ih]
  | case3 last rest hblank | case4 last rest hblank =>
    rw [walk, if_neg (by decide), if_pos rfl, readTokens_close]
    simp [hblank]
  | case5 last rest _ _ ih =>
    rw [walk_comma, ih, readTokens_comma]
    simp
  | case6 last char rest _ _ _ hword ih =>
    have hwalk : walk none last (char :: rest) =
        walk none (char :: rest.takeWhile isWordUnit).getLast? (rest.dropWhile isWordUnit) := by
      conv_lhs => rw [← List.takeWhile_append_dropWhile (p := isWordUnit) (l := rest)]
      rw [walk_wordUnit hword, walk_word fun c hc => List.mem_takeWhile_imp hc]
    rw [hwalk, ih, readTokens_word hword]
    simp
  | case7 last char rest hspace hclose hcomma hword hquote =>
    rw [walk, if_neg hquote, if_neg hclose, if_neg (by simp [hspace, hcomma, hword]), readTokens,
      if_neg hspace, if_neg hclose, if_neg hcomma, if_neg hword, if_pos hquote]
    simp
  | case8 last char rest _ _ _ _ hquote htag =>
    have hquote := not_not.mp hquote
    rw [walk, if_pos hquote, if_pos htag, readTokens_quote hquote, if_pos htag]
    simp
  | case9 last char rest _ _ _ _ hquote htag hread =>
    have hquote := not_not.mp hquote
    rw [walk, if_pos hquote, if_neg htag, walk_quoted, readTokens_quote hquote, if_neg htag, hread]
    simp
  | case10 last char rest _ _ _ _ hquote htag text after hread ih =>
    have hquote := not_not.mp hquote
    rw [walk, if_pos hquote, if_neg htag, walk_quoted, readTokens_quote hquote, if_neg htag, hread,
      Option.bind_some, ih]
    simp

end Walk

/-- The expression is a call by that name with those tokens between its parentheses. -/
def ReadsAs (expr name : JsString) (tokens : List Token) : Prop :=
  ∃ rest, execFromAI (strip expr) = some (name, rest) ∧ readTokens none rest = some tokens

/-- **The check** accepts what reads as a call with some tokens. -/
theorem isFromAIOnlyExpression_iff (expr : JsString) :
    isFromAIOnlyExpression expr = true ↔ ∃ name tokens, ReadsAs expr name tokens := by
  unfold isFromAIOnlyExpression ReadsAs
  cases hexec : execFromAI (strip expr) with
  | none => simp
  | some p =>
    obtain ⟨name, rest⟩ := p
    have hread := walk_iff none rest
    cases hwalk : walk none none rest with
    | none =>
      rw [hwalk] at hread
      simpa [hwalk] using hread
    | some remainder =>
      rw [hwalk] at hread
      simpa [hwalk] using hread

end N8n.FromAI
