import N8n.Expressions.FromAI

/-!
# Literal arguments

What it means for an expression to be one call of `$fromAI` with literals for arguments, by the
grammar of the language: the call stands between the optional `=`, delimiters and marker, under a
name that the data proxy knows, and each argument is a string, a number, `true`, `false` or `null`.
Objects and arrays are literals too, but the check refuses their brackets.

## Main definitions

* `isLiteralWord`, `StringText`, `Literal`: the literals
* `Arguments`: arguments with commas between them
* `IsFromAICall`: the expression is one call with literal arguments

## Main results

* `isFromAICall_iff`: the grammar in terms of tokens
* `accepted_isFromAICall_iff`: when an accepted expression is such a call. The check leaves any word
  outside quotes through, so `$fromAI(secret.key)` is accepted and reads a variable
-/

namespace N8n.FromAI

/-! ## Words -/

def isHexDigit (c : CodeUnit) : Bool :=
  isDigit c || (ascii 'a' ≤ lower c && lower c ≤ ascii 'f')

/-- `0`, or digits that begin with another. -/
def isDecimalInteger (w : JsString) : Bool :=
  w == js ['0'] || (w.all isDigit && w.head?.any (· != ascii '0'))

/-- Nothing, or `e` and digits, which may have a minus sign. -/
def isExponent : JsString → Bool
  | [] => true
  | mark :: rest =>
    let digits := if rest.head? = some (ascii '-') then rest.drop 1 else rest
    lower mark == ascii 'e' && digits != [] && digits.all isDigit

/-- Digits with a dot among them or at one end. -/
def isMantissa (w : JsString) : Bool :=
  let whole := w.takeWhile (· != ascii '.')
  match w.dropWhile (· != ascii '.') with
  | [] => isDecimalInteger whole
  | _ :: fraction =>
    (isDecimalInteger whole || (whole == [] && fraction != [])) && fraction.all isDigit

def isDecimal (w : JsString) : Bool :=
  isMantissa (w.takeWhile (lower · != ascii 'e')) && isExponent (w.dropWhile (lower · != ascii 'e'))

/-- `0x`, `0o` or `0b` and digits. -/
def isRadixInteger : JsString → Bool
  | zero :: mark :: digits =>
    zero == ascii '0' && digits != [] &&
      ((lower mark == ascii 'x' && digits.all isHexDigit) ||
       (lower mark == ascii 'o' && digits.all fun c => ascii '0' ≤ c && c ≤ ascii '7') ||
       (lower mark == ascii 'b' && digits.all fun c => c == ascii '0' || c == ascii '1'))
  | _ => false

/-- An integer with the suffix `n`. -/
def isBigInteger (w : JsString) : Bool :=
  w.getLast? == some (ascii 'n') && (isDecimalInteger w.dropLast || isRadixInteger w.dropLast)

/-- A number, which may have a minus sign. Octal numbers by a leading zero, which strict code
refuses, are left out. -/
def isNumber (w : JsString) : Bool :=
  let unsigned := if w.head? = some (ascii '-') then w.drop 1 else w
  isDecimal unsigned || isRadixInteger unsigned || isBigInteger unsigned

def isLiteralWord (w : JsString) : Bool :=
  isNumber w || w == js "true".toList || w == js "false".toList || w == js "null".toList

section Words

variable {c : CodeUnit} {w : JsString}

def WordUnits (w : JsString) : Prop := ∀ c ∈ w, isWordUnit c

theorem WordUnits.of_all {p : CodeUnit → Bool} (hp : ∀ c, p c → isWordUnit c) (h : w.all p) :
    WordUnits w := fun c hc => hp c (List.all_eq_true.mp h c hc)

theorem WordUnits.cons (hc : isWordUnit c) (hw : WordUnits w) : WordUnits (c :: w) :=
  List.forall_mem_cons.mpr ⟨hc, hw⟩

theorem WordUnits.append {v : JsString} (hv : WordUnits v) (hw : WordUnits w) :
    WordUnits (v ++ w) := fun c hc => (List.mem_append.mp hc).elim (hv c) (hw c)

theorem isWordUnit_of_isAlphanumeric (h : isAlphanumeric c) : isWordUnit c := by
  simp [isWordUnit, h]

theorem isWordUnit_of_isDigit (h : isDigit c) : isWordUnit c :=
  isWordUnit_of_isAlphanumeric (by simp [isAlphanumeric, h])

theorem isWordUnit_of_lower (h : isAlphanumeric (lower c)) : isWordUnit c := by
  apply isWordUnit_of_isAlphanumeric
  unfold lower at h
  split_ifs at h with hc
  · simp [isAlphanumeric, hc]
  · exact h

theorem isWordUnit_of_isHexDigit (h : isHexDigit c) : isWordUnit c := by
  simp only [isHexDigit, Bool.or_eq_true, Bool.and_eq_true, decide_eq_true_eq] at h
  rcases h with h | ⟨ha, hf⟩
  · exact isWordUnit_of_isDigit h
  · refine isWordUnit_of_lower ?_
    have hz : lower c ≤ ascii 'z' := UInt16.le_trans hf (by decide)
    simp [isAlphanumeric, ha, hz]

theorem wordUnits_of_isDecimalInteger (h : isDecimalInteger w) : WordUnits w := by
  simp only [isDecimalInteger, Bool.or_eq_true, beq_iff_eq, Bool.and_eq_true] at h
  rcases h with rfl | ⟨h, -⟩
  · exact WordUnits.cons (by decide) (fun _ h => absurd h List.not_mem_nil)
  · exact .of_all (fun _ => isWordUnit_of_isDigit) h

theorem wordUnits_of_isExponent (h : isExponent w) : WordUnits w := by
  match w, h with
  | [], _ => exact fun _ h => absurd h List.not_mem_nil
  | mark :: rest, h =>
    simp only [isExponent, Bool.and_eq_true, beq_iff_eq] at h
    obtain ⟨⟨hmark, -⟩, hdigits⟩ := h
    refine .cons (isWordUnit_of_lower (by rw [hmark]; decide)) ?_
    split_ifs at hdigits with hminus
    · obtain ⟨rest, rfl⟩ := List.head?_eq_some_iff.mp hminus
      exact .cons (by decide) (.of_all (fun _ => isWordUnit_of_isDigit) hdigits)
    · exact .of_all (fun _ => isWordUnit_of_isDigit) hdigits

theorem wordUnits_of_isMantissa (h : isMantissa w) : WordUnits w := by
  have hsplit := List.takeWhile_append_dropWhile (p := (· != ascii '.')) (l := w)
  have hdot : ∀ {d fraction}, w.dropWhile (· != ascii '.') = d :: fraction → d = ascii '.' := by
    intro d fraction hd
    have hne : w.dropWhile (· != ascii '.') ≠ [] := by rw [hd]; exact List.cons_ne_nil _ _
    simpa [hd] using List.head_dropWhile_not (p := (· != ascii '.')) hne
  unfold isMantissa at h
  rw [← hsplit]
  cases hd : w.dropWhile (· != ascii '.') with
  | nil =>
    simp only [hd] at h
    rw [List.append_nil]
    exact wordUnits_of_isDecimalInteger h
  | cons d fraction =>
    obtain rfl := hdot hd
    simp only [hd, Bool.and_eq_true, Bool.or_eq_true, beq_iff_eq] at h
    obtain ⟨hwhole, hfraction⟩ := h
    refine .append ?_ (.cons (by decide) (.of_all (fun _ => isWordUnit_of_isDigit) hfraction))
    rcases hwhole with hwhole | ⟨hwhole, -⟩
    · exact wordUnits_of_isDecimalInteger hwhole
    · rw [hwhole]
      exact fun _ h => absurd h List.not_mem_nil

theorem wordUnits_of_isDecimal (h : isDecimal w) : WordUnits w := by
  obtain ⟨hmantissa, hexponent⟩ := Bool.and_eq_true_iff.mp h
  rw [← List.takeWhile_append_dropWhile (p := (lower · != ascii 'e')) (l := w)]
  exact (wordUnits_of_isMantissa hmantissa).append (wordUnits_of_isExponent hexponent)

theorem wordUnits_of_isRadixInteger (h : isRadixInteger w) : WordUnits w := by
  match w, h with
  | zero :: mark :: digits, h =>
    simp only [isRadixInteger, Bool.and_eq_true, Bool.or_eq_true, beq_iff_eq] at h
    obtain ⟨⟨rfl, -⟩, h⟩ := h
    refine .cons (by decide) ?_
    rcases h with (⟨hmark, h⟩ | ⟨hmark, h⟩) | ⟨hmark, h⟩
    · exact .cons (isWordUnit_of_lower (by rw [hmark]; decide))
        (.of_all (fun _ => isWordUnit_of_isHexDigit) h)
    · refine .cons (isWordUnit_of_lower (by rw [hmark]; decide)) (.of_all (fun c hc => ?_) h)
      simp only [Bool.and_eq_true, decide_eq_true_eq] at hc
      have h9 : c ≤ ascii '9' := UInt16.le_trans hc.2 (by decide)
      exact isWordUnit_of_isDigit (by simp [isDigit, hc.1, h9])
    · refine .cons (isWordUnit_of_lower (by rw [hmark]; decide)) (.of_all (fun c hc => ?_) h)
      simp only [Bool.or_eq_true, beq_iff_eq] at hc
      rcases hc with rfl | rfl <;> decide

theorem wordUnits_of_isBigInteger (h : isBigInteger w) : WordUnits w := by
  simp only [isBigInteger, Bool.and_eq_true, Bool.or_eq_true, beq_iff_eq] at h
  obtain ⟨hlast, hdigits⟩ := h
  obtain ⟨digits, rfl⟩ := List.getLast?_eq_some_iff.mp hlast
  rw [List.dropLast_concat] at hdigits
  refine .append ?_ (.cons (by decide) (fun _ h => absurd h List.not_mem_nil))
  exact hdigits.elim wordUnits_of_isDecimalInteger wordUnits_of_isRadixInteger

theorem wordUnits_of_isLiteralWord (h : isLiteralWord w) : WordUnits w := by
  have hunsigned : ∀ {u}, isDecimal u || isRadixInteger u || isBigInteger u → WordUnits u := by
    intro u hu
    simp only [Bool.or_eq_true] at hu
    rcases hu with (hu | hu) | hu
    · exact wordUnits_of_isDecimal hu
    · exact wordUnits_of_isRadixInteger hu
    · exact wordUnits_of_isBigInteger hu
  simp only [isLiteralWord, Bool.or_eq_true, beq_iff_eq] at h
  rcases h with ((h | rfl) | rfl) | rfl
  · unfold isNumber at h
    split_ifs at h with hminus
    · obtain ⟨rest, rfl⟩ := List.head?_eq_some_iff.mp hminus
      exact .cons (by decide) (hunsigned h)
    · exact hunsigned h
  · exact .of_all (p := isWordUnit) (fun _ h => h) (by decide)
  · exact .of_all (p := isWordUnit) (fun _ h => h) (by decide)
  · exact .of_all (p := isWordUnit) (fun _ h => h) (by decide)

theorem isLiteralWord_ne_nil (h : isLiteralWord w) : w ≠ [] := by
  rintro rfl
  exact absurd h (by decide)

end Words

/-! ## Strings -/

/-- Carriage return, line feed. A string may hold the other two line terminators. -/
def isLineBreak (c : CodeUnit) : Bool := c == 0xD || c == 0xA

def hexValue (digits : JsString) : ℕ :=
  digits.foldl (fun value c =>
    16 * value + if isDigit c then (c - ascii '0').toNat else (lower c - ascii 'a').toNat + 10) 0

/-- What may follow a backslash, apart from a line break: `\x` and `\u` take their digits, and the
only digit is a `0` with no digit after it. -/
def isEscape : JsString → Bool
  | [] => false
  | c :: rest =>
    if c = ascii 'x' then (rest.take 2).length == 2 && (rest.take 2).all isHexDigit
    else if c = ascii 'u' then
      if rest.head? = some (ascii '{') then
        let digits := (rest.drop 1).takeWhile isHexDigit
        digits != [] && hexValue digits ≤ 0x10FFFF &&
          ((rest.drop 1).dropWhile isHexDigit).head? == some (ascii '}')
      else (rest.take 4).length == 4 && (rest.take 4).all isHexDigit
    else if isDigit c then c == ascii '0' && !rest.head?.any isDigit
    else true

/-- The text of a string between its quotes. A template may span lines and has no interpolation. -/
inductive StringText (quote : CodeUnit) : JsString → Prop
  | nil : StringText quote []
  | unit {c : CodeUnit} {text : JsString} (hquote : c ≠ quote) (hslash : c ≠ backslash)
      (hline : isLineBreak c → quote = ascii '`')
      (hinter : ¬ (quote = ascii '`' ∧ c = ascii '$' ∧ text.head? = some (ascii '{')))
      (h : StringText quote text) : StringText quote (c :: text)
  | escape {c : CodeUnit} {text : JsString} (hescape : isEscape (c :: text))
      (h : StringText quote text) : StringText quote (backslash :: c :: text)
  | lineContinuation {text : JsString} (h : StringText quote text) :
      StringText quote (backslash :: 0xD :: 0xA :: text)

inductive Literal : JsString → Prop
  | word {w : JsString} (h : isLiteralWord w) : Literal w
  | quoted {quote : CodeUnit} {text : JsString} (hquote : quote ∈ quoteChars)
      (h : StringText quote text) : Literal (quote :: (text ++ [quote]))

/-- Arguments with commas between them, and perhaps one at the end. The flag says that an argument
may come next, and not only a comma. -/
inductive Arguments : Bool → JsString → Prop
  | nil {expected : Bool} : Arguments expected []
  | space {expected : Bool} {c : CodeUnit} {text : JsString} (hc : isSpace c)
      (h : Arguments expected text) : Arguments expected (c :: text)
  | literal {l text : JsString} (hl : Literal l) (h : Arguments false text) :
      Arguments true (l ++ text)
  | comma {text : JsString} (h : Arguments true text) : Arguments false (ascii ',' :: text)

/-! ## Arguments as tokens -/

/-- A comma stands between any two arguments, and none before the first. -/
def Separated : Bool → List Token → Prop
  | _, [] => True
  | true, .comma :: _ => False
  | true, _ :: ts => Separated false ts
  | false, .comma :: ts => Separated true ts
  | false, _ :: _ => False

def Token.IsLiteral : Token → Prop
  | .comma => True
  | .word text => isLiteralWord text
  | .quoted quote text => StringText quote text

section Tokens

variable {quote : CodeUnit} {text rest : JsString} {last : Option CodeUnit}

theorem readQuoted_of_stringText (h : StringText quote text) (hquote : quote ∈ quoteChars)
    (hrest : rest ≠ []) : readQuoted quote (text ++ quote :: rest) = some (text, rest) := by
  have hslash : quote ≠ backslash := by
    rintro rfl
    exact absurd hquote (by decide)
  induction h with
  | nil =>
    obtain ⟨next, rest, rfl⟩ := List.exists_cons_of_ne_nil hrest
    rw [List.nil_append, readQuoted, if_neg hslash, if_neg ?_, if_pos rfl]
    rintro ⟨rfl, h, -⟩
    exact absurd h (by decide)
  | @unit c text hc hcs _ hinter h ih =>
    obtain ⟨next, after, hnext⟩ : ∃ next after, text ++ quote :: rest = next :: after :=
      List.exists_cons_of_ne_nil (by simp)
    rw [List.cons_append, hnext, readQuoted, if_neg hcs, if_neg ?_, if_neg hc, ← hnext, ih]
    · rfl
    · rintro ⟨rfl, hd, rfl⟩
      refine hinter ⟨rfl, hd, ?_⟩
      cases text with
      | nil => exact absurd (List.cons.inj hnext).1 (by decide)
      | cons d text => exact congrArg some (List.cons.inj hnext).1
  | @escape c text _ h ih =>
    rw [List.cons_append, List.cons_append, readQuoted, if_pos rfl, ih]
    rfl
  | @lineContinuation text h ih =>
    obtain ⟨next, after, hnext⟩ : ∃ next after, text ++ quote :: rest = next :: after :=
      List.exists_cons_of_ne_nil (by simp)
    have hfeed : (0xA : CodeUnit) ≠ quote := by
      rintro rfl
      exact absurd hquote (by decide)
    rw [List.cons_append, List.cons_append, List.cons_append, readQuoted, if_pos rfl, hnext,
      readQuoted, if_neg (by decide), if_neg ?_, if_neg hfeed, ← hnext, ih]
    · rfl
    · rintro ⟨-, h, -⟩
      exact absurd h (by decide)

/-- A word ends before white space, a comma or the parenthesis. -/
theorem exists_cons_of_arguments {args : JsString} (h : Arguments false args) (after : JsString) :
    ∃ d tail, args ++ ascii ')' :: after = d :: tail ∧ isWordUnit d = false := by
  cases h with
  | nil => exact ⟨_, _, rfl, by decide⟩
  | @space _ c _ hc =>
    refine ⟨_, _, rfl, ?_⟩
    by_contra hw
    rw [Bool.not_eq_false] at hw
    rw [not_isSpace_of_isWordUnit hw] at hc
    cases hc
  | comma => exact ⟨_, _, rfl, by decide⟩

theorem readTokens_literalWord {w args after : JsString} (hw : isLiteralWord w)
    (h : Arguments false args) : readTokens last (w ++ (args ++ ascii ')' :: after)) =
      (readTokens w.getLast? (args ++ ascii ')' :: after)).map (Token.word w :: ·) := by
  obtain ⟨d, tail, hd, hunit⟩ := exists_cons_of_arguments h after
  obtain ⟨c, w, rfl⟩ := List.exists_cons_of_ne_nil (isLiteralWord_ne_nil hw)
  obtain ⟨hc, hall⟩ := List.forall_mem_cons.mp (wordUnits_of_isLiteralWord hw)
  have hstop : isWordUnit d ≠ true := by simp [hunit]
  rw [hd, List.cons_append, readTokens_word hc, List.takeWhile_append_of_pos hall,
    List.dropWhile_append_of_pos hall, List.takeWhile_cons_of_neg hstop,
    List.dropWhile_cons_of_neg hstop, List.append_nil]

/-- Literal arguments are read as literal tokens. -/
theorem exists_tokens {expected : Bool} {args after : JsString} (h : Arguments expected args)
    (hafter : trim after = [])
    (hlast : expected → ¬ last.any fun c => isAlphanumeric c || c == ascii '_') :
    ∃ ts, readTokens last (args ++ ascii ')' :: after) = some ts ∧ (∀ t ∈ ts, t.IsLiteral) ∧
      Separated expected ts := by
  induction h generalizing last with
  | nil =>
    refine ⟨[], ?_, fun _ h => absurd h List.not_mem_nil, by simp [Separated]⟩
    rw [List.nil_append, readTokens_close, if_pos hafter]
  | space hc _ ih =>
    rw [List.cons_append, readTokens_space hc]
    exact ih hlast
  | @literal l text hl h ih =>
    cases hl with
    | word hw =>
      obtain ⟨ts, hts, hlit, hsep⟩ := @ih l.getLast? (fun h => by cases h)
      refine ⟨.word l :: ts, ?_, List.forall_mem_cons.mpr ⟨hw, hlit⟩, hsep⟩
      rw [List.append_assoc, readTokens_literalWord hw h, hts, Option.map_some]
    | @quoted quote content hquote hcontent =>
      obtain ⟨ts, hts, hlit, hsep⟩ := @ih (some quote) (fun h => by cases h)
      refine ⟨.quoted quote content :: ts, ?_, List.forall_mem_cons.mpr ⟨hcontent, hlit⟩, hsep⟩
      have hread : readQuoted quote (content ++ quote :: (text ++ ascii ')' :: after)) =
          some (content, text ++ ascii ')' :: after) :=
        readQuoted_of_stringText hcontent hquote (by simp)
      rw [List.cons_append, List.cons_append, readTokens_quote hquote,
        if_neg fun htag => hlast rfl htag.2, List.append_assoc, List.append_assoc,
        List.singleton_append, hread, Option.bind_some, hts, Option.map_some]
  | comma _ ih =>
    obtain ⟨ts, hts, hlit, hsep⟩ := @ih (some (ascii ',')) (fun _ => by decide)
    refine ⟨.comma :: ts, ?_, List.forall_mem_cons.mpr ⟨trivial, hlit⟩, hsep⟩
    rw [List.cons_append, readTokens_comma, hts, Option.map_some]

theorem exists_arguments {expected : Bool} {s : JsString} {ts : List Token}
    (h : readTokens last s = some ts) (hlit : ∀ t ∈ ts, t.IsLiteral) (hsep : Separated expected ts) :
    ∃ args after, s = args ++ ascii ')' :: after ∧ trim after = [] ∧ Arguments expected args := by
  induction last, s using readTokens.induct generalizing expected ts with
  | case1 last => simp [readTokens] at h
  | case2 last char rest hspace ih =>
    rw [readTokens_space hspace] at h
    obtain ⟨args, after, rfl, hafter, hargs⟩ := ih h hlit hsep
    exact ⟨char :: args, after, rfl, hafter, .space hspace hargs⟩
  | case3 last rest hblank => exact ⟨[], rest, rfl, hblank, .nil⟩
  | case4 last rest hblank =>
    rw [readTokens_close, if_neg hblank] at h
    cases h
  | case5 last rest _ _ ih =>
    rw [readTokens_comma] at h
    obtain ⟨ts, hts, rfl⟩ := Option.map_eq_some_iff.mp h
    cases expected with
    | true => exact hsep.elim
    | false =>
      obtain ⟨args, after, rfl, hafter, hargs⟩ := ih hts (List.forall_mem_cons.mp hlit).2 hsep
      exact ⟨ascii ',' :: args, after, rfl, hafter, .comma hargs⟩
  | case6 last char rest _ _ _ hword ih =>
    rw [readTokens_word hword] at h
    obtain ⟨ts, hts, rfl⟩ := Option.map_eq_some_iff.mp h
    obtain ⟨hw, hlit⟩ := List.forall_mem_cons.mp hlit
    cases expected with
    | true =>
      obtain ⟨args, after, hrest, hafter, hargs⟩ := ih hts hlit hsep
      refine ⟨char :: rest.takeWhile isWordUnit ++ args, after, ?_, hafter, .literal (.word hw) hargs⟩
      rw [List.append_assoc, ← hrest, List.cons_append, List.takeWhile_append_dropWhile]
    | false => exact hsep.elim
  | case7 last char rest hspace hclose hcomma hword hquote =>
    rw [readTokens, if_neg hspace, if_neg hclose, if_neg hcomma, if_neg hword, if_pos hquote] at h
    cases h
  | case8 last char rest _ _ _ _ hquote htag =>
    rw [readTokens_quote (not_not.mp hquote), if_pos htag] at h
    cases h
  | case9 last char rest _ _ _ _ hquote htag hread =>
    rw [readTokens_quote (not_not.mp hquote), if_neg htag, hread] at h
    cases h
  | case10 last char rest _ _ _ _ hquote htag text after' hread ih =>
    have hquote := not_not.mp hquote
    rw [readTokens_quote hquote, if_neg htag, hread, Option.bind_some] at h
    obtain ⟨ts, hts, rfl⟩ := Option.map_eq_some_iff.mp h
    obtain ⟨hcontent, hlit⟩ := List.forall_mem_cons.mp hlit
    cases expected with
    | true =>
      obtain ⟨args, after, rfl, hafter, hargs⟩ := ih hts hlit hsep
      refine ⟨char :: (text ++ [char]) ++ args, after, ?_, hafter,
        .literal (.quoted hquote hcontent) hargs⟩
      rw [eq_of_readQuoted hread]
      simp
    | false => exact hsep.elim

end Tokens

/-! ## The call in its expression -/

/-- The names of the function in the data proxy. -/
def fromAINames : List JsString :=
  [js "$fromAI".toList, js "$fromai".toList, js "$fromAi".toList]

/-- The code, perhaps after the marker comment. -/
inductive Marked (code : JsString) : JsString → Prop
  | plain : Marked code code
  | marked {space : JsString} (h : Blank space) : Marked code (autoGeneratedMarker ++ (space ++ code))

inductive Delimited (code : JsString) : JsString → Prop
  | plain {str : JsString} (h : Marked code str) : Delimited code str
  | braces {a str b : JsString} (ha : Blank a) (hb : Blank b) (h : Marked code str) :
      Delimited code (js ['{', '{'] ++ (a ++ str ++ b) ++ js ['}', '}'])

def IsExpressionOf (expr code : JsString) : Prop :=
  ∃ a str b, Blank a ∧ Blank b ∧ Delimited code str ∧
    (expr = a ++ str ++ b ∨ expr = ascii '=' :: (a ++ str ++ b))

/-- The expression is one call of `$fromAI` with literal arguments. -/
def IsFromAICall (expr : JsString) : Prop :=
  ∃ name ∈ fromAINames, ∃ space args, Blank space ∧ Arguments true args ∧
    IsExpressionOf expr (name ++ (space ++ ascii '(' :: (args ++ [ascii ')'])))

section Strip

variable {expr code str : JsString}

/-- Ends that are no white space. -/
structure Ends (str : JsString) (first last : CodeUnit) : Prop where
  head : str.head? = some first
  getLast : str.getLast? = some last
  first_ne : isSpace first = false
  last_ne : isSpace last = false

theorem Ends.trim_eq {a b : JsString} {first last : CodeUnit} (h : Ends str first last)
    (ha : Blank a) (hb : Blank b) : trim (a ++ str ++ b) = str :=
  N8n.trim_eq ha hb h.head h.first_ne h.getLast h.last_ne

theorem Ends.not_start {first last c : CodeUnit} {p : JsString} (h : Ends str first last)
    (hc : first ≠ c) : ¬ (c :: p) <+: str := by
  rintro ⟨t, rfl⟩
  exact hc (Option.some.inj h.head).symm

theorem Marked.ends (h : Marked code str) (hcode : Ends code (ascii '$') (ascii ')')) :
    ∃ first, Ends str first (ascii ')') ∧ first ∈ js ['$', '/'] := by
  cases h with
  | plain => exact ⟨_, hcode, by decide⟩
  | @marked space _ =>
    refine ⟨ascii '/', ⟨rfl, ?_, by decide, by decide⟩, by decide⟩
    rw [List.getLast?_append, List.getLast?_append, hcode.getLast]
    rfl

theorem stripMarker_eq (h : Marked code str) (hcode : Ends code (ascii '$') (ascii ')')) :
    stripMarker str = code := by
  unfold stripMarker
  cases h with
  | plain => exact if_neg (hcode.not_start (by decide))
  | @marked space hspace =>
    rw [if_pos (List.prefix_append _ _), List.drop_left]
    simpa using hcode.trim_eq hspace Blank.nil

theorem Delimited.ends (h : Delimited code str) (hcode : Ends code (ascii '$') (ascii ')')) :
    ∃ first last, Ends str first last ∧ first ∈ js ['$', '/', '{'] := by
  cases h with
  | plain h =>
    obtain ⟨first, hends, hfirst⟩ := h.ends hcode
    exact ⟨first, _, hends, List.mem_append_left [ascii '{'] hfirst⟩
  | @braces a s b =>
    refine ⟨ascii '{', ascii '}', ⟨rfl, ?_, by decide, by decide⟩, by decide⟩
    rw [List.getLast?_append]
    rfl

theorem stripDelimiters_braces (x : JsString) :
    stripDelimiters (js ['{', '{'] ++ x ++ js ['}', '}']) = trim x := by
  have hslice : ((js ['{', '{'] ++ x ++ js ['}', '}']).drop 2).take
      ((js ['{', '{'] ++ x ++ js ['}', '}']).length - 4) = x := by
    have hlength : (js ['{', '{'] ++ x ++ js ['}', '}']).length - 4 = x.length := by
      simp [js]
    rw [hlength, List.append_assoc, show (2 : ℕ) = (js ['{', '{']).length from rfl, List.drop_left,
      List.take_left]
  rw [stripDelimiters, if_pos ⟨⟨x ++ js ['}', '}'], (List.append_assoc _ _ _).symm⟩,
    List.suffix_append _ _⟩, hslice]

theorem stripDelimiters_eq (h : Delimited code str) (hcode : Ends code (ascii '$') (ascii ')')) :
    Marked code (stripDelimiters str) := by
  cases h with
  | plain h =>
    obtain ⟨first, hends, hfirst⟩ := h.ends hcode
    rw [stripDelimiters, if_neg fun hb => hends.not_start ?_ hb.1]
    · exact h
    · rintro rfl
      exact absurd hfirst (by decide)
  | @braces a str b ha hb h =>
    obtain ⟨first, hends, -⟩ := h.ends hcode
    rwa [stripDelimiters_braces, hends.trim_eq ha hb]

/-- What stands around the code is stripped. -/
theorem strip_eq (h : IsExpressionOf expr code) (hcode : Ends code (ascii '$') (ascii ')')) :
    strip expr = code := by
  obtain ⟨a, str, b, ha, hb, hstr, hexpr⟩ := h
  obtain ⟨first, last, hends, hfirst⟩ := hstr.ends hcode
  have hsign : stripSign expr = a ++ str ++ b := by
    rcases hexpr with rfl | rfl
    · refine if_neg ?_
      cases a with
      | nil =>
        rintro ⟨t, ht⟩
        have hhead : first = ascii '=' := by
          have := congrArg List.head? ht
          rw [List.nil_append, List.head?_append, List.head?_append, hends.head] at this
          exact (Option.some.inj this).symm
        rw [hhead] at hfirst
        exact absurd hfirst (by decide)
      | cons c a =>
        rintro ⟨t, ht⟩
        have hc := ha c List.mem_cons_self
        rw [← (List.cons.inj ht).1] at hc
        exact absurd hc (by decide)
    · rw [stripSign, if_pos ⟨_, rfl⟩]
      rfl
  rw [strip, hsign, hends.trim_eq ha hb]
  exact stripMarker_eq (stripDelimiters_eq hstr hcode) hcode

theorem exists_between {str : JsString} (h : js ['{', '{'] <+: str) (h' : js ['}', '}'] <:+ str) :
    ∃ x, str = js ['{', '{'] ++ x ++ js ['}', '}'] := by
  obtain ⟨u, hu⟩ := h
  obtain ⟨v, hv⟩ := h'
  rcases List.append_eq_append_iff.mp (hv.trans hu.symm) with ⟨c, hc, hc'⟩ | ⟨x, rfl, -⟩
  · -- the braces would overlap
    cases c with
    | nil =>
      rw [List.append_nil] at hc
      exact ⟨[], by rw [← hv, ← hc, List.append_nil]⟩
    | cons d c =>
      have hopen : d ∈ js ['{', '{'] := hc ▸ List.mem_append_right _ List.mem_cons_self
      have hclose : d ∈ js ['}', '}'] := hc' ▸ List.mem_append_left _ List.mem_cons_self
      simp only [js, List.map_cons, List.map_nil, List.mem_cons, List.not_mem_nil, or_false,
        or_self] at hopen hclose
      exact absurd (hopen.symm.trans hclose) (by decide)
  · exact ⟨x, hv.symm⟩

/-- Only what may stand around code is stripped. -/
theorem isExpressionOf_strip {after : JsString} (h : strip expr = code ++ after)
    (hafter : Blank after) : IsExpressionOf expr code := by
  unfold strip at h
  -- the marker, and the white space after the code
  obtain ⟨m, t, hm, ht, hmt⟩ : ∃ m t, Marked code m ∧ Blank t ∧
      stripDelimiters (trim (stripSign expr)) = m ++ t := by
    generalize stripDelimiters (trim (stripSign expr)) = str at h
    unfold stripMarker at h
    split_ifs at h with hmark
    · obtain ⟨rest, rfl⟩ := hmark
      rw [List.drop_left] at h
      obtain ⟨a, b, ha, hb, hrest⟩ := exists_trim rest
      refine ⟨_, after ++ b, .marked ha, hafter.append hb, ?_⟩
      rw [hrest, h]
      simp
    · exact ⟨_, after, .plain, hafter, h⟩
  -- the delimiters
  obtain ⟨d, t', hd, ht', hdt⟩ : ∃ d t', Delimited code d ∧ Blank t' ∧
      trim (stripSign expr) = d ++ t' := by
    generalize trim (stripSign expr) = str at hmt
    unfold stripDelimiters at hmt
    split_ifs at hmt with hbraces
    · obtain ⟨x, rfl⟩ := exists_between hbraces.1 hbraces.2
      have hslice := stripDelimiters_braces x
      rw [stripDelimiters, if_pos hbraces] at hslice
      rw [hslice] at hmt
      obtain ⟨a, b, ha, hb, hx⟩ := exists_trim x
      refine ⟨_, [], .braces ha (ht.append hb) hm, Blank.nil, ?_⟩
      rw [hx, hmt]
      simp
    · exact ⟨m, t, .plain hm, ht, hmt⟩
  obtain ⟨a, b, ha, hb, htrim⟩ := exists_trim (stripSign expr)
  refine ⟨a, d, t' ++ b, ha, ht'.append hb, hd, ?_⟩
  have hsign : stripSign expr = a ++ d ++ (t' ++ b) := by
    rw [htrim, hdt]
    simp
  unfold stripSign at hsign
  split_ifs at hsign with hs
  · obtain ⟨rest, rfl⟩ := hs
    rw [← hsign]
    exact .inr rfl
  · exact .inl hsign

end Strip

section Call

variable {name space rest str expr : JsString}

theorem execFromAI_eq (hname : name ∈ fromAINames) (hspace : Blank space) :
    execFromAI (name ++ (space ++ ascii '(' :: rest)) = some (name, rest) := by
  have hlower : name.length = 7 ∧ name.map lower = js "$fromai".toList := by
    simp only [fromAINames, List.mem_cons, List.not_mem_nil, or_false] at hname
    rcases hname with rfl | rfl | rfl <;> decide
  have htake : (name ++ (space ++ ascii '(' :: rest)).take 7 = name := by
    rw [← hlower.1, List.take_left]
  have hdrop : ((name ++ (space ++ ascii '(' :: rest)).drop 7).dropWhile isSpace =
      ascii '(' :: rest := by
    rw [← hlower.1, List.drop_left, dropWhile_blank hspace,
      List.dropWhile_cons_of_neg (by decide)]
  simp only [execFromAI, htake, hdrop, hlower.2, if_true]

theorem of_execFromAI (h : execFromAI str = some (name, rest)) :
    ∃ space, Blank space ∧ str = name ++ (space ++ ascii '(' :: rest) := by
  simp only [execFromAI] at h
  split_ifs at h with hname
  have hsplit := List.takeWhile_append_dropWhile (p := isSpace) (l := str.drop 7)
  match hd : (str.drop 7).dropWhile isSpace, h with
  | char :: after, h =>
    simp only at h
    split_ifs at h with hopen
    obtain ⟨rfl, rfl⟩ := Prod.mk.inj (Option.some.inj h)
    refine ⟨(str.drop 7).takeWhile isSpace, blank_takeWhile _, ?_⟩
    rw [← hopen, ← hd, hsplit, List.take_append_drop]

theorem ends_call {args : JsString} (hname : name ∈ fromAINames) :
    Ends (name ++ (space ++ ascii '(' :: (args ++ [ascii ')']))) (ascii '$') (ascii ')') := by
  have hhead : name.head? = some (ascii '$') := by
    simp only [fromAINames, List.mem_cons, List.not_mem_nil, or_false] at hname
    rcases hname with rfl | rfl | rfl <;> rfl
  refine ⟨by rw [List.head?_append, hhead]; rfl, ?_, by decide, by decide⟩
  rw [← List.cons_append, ← List.append_assoc, ← List.append_assoc, List.getLast?_concat]

/-- **The grammar in terms of tokens**: the name is one of the three, and the tokens are literals
with commas between them. -/
theorem isFromAICall_iff : IsFromAICall expr ↔ ∃ name ts, ReadsAs expr name ts ∧
    name ∈ fromAINames ∧ (∀ t ∈ ts, t.IsLiteral) ∧ Separated true ts := by
  constructor
  · rintro ⟨name, hname, space, args, hspace, hargs, hexpr⟩
    obtain ⟨ts, hts, hlit, hsep⟩ := @exists_tokens none true args [] hargs rfl (fun _ => by simp)
    refine ⟨name, ts, ⟨args ++ [ascii ')'], ?_, hts⟩, hname, hlit, hsep⟩
    rw [strip_eq hexpr (ends_call hname), execFromAI_eq hname hspace]
  · rintro ⟨name, ts, ⟨rest, hexec, hts⟩, hname, hlit, hsep⟩
    obtain ⟨args, after, rfl, hafter, hargs⟩ := exists_arguments hts hlit hsep
    obtain ⟨space, hspace, hstrip⟩ := of_execFromAI hexec
    refine ⟨name, hname, space, args, hspace, hargs, ?_⟩
    apply isExpressionOf_strip _ (trim_eq_nil.mp hafter)
    rw [hstrip]
    simp

/-- An expression reads as one call at most. -/
theorem ReadsAs.unique {name' : JsString} {ts ts' : List Token} (h : ReadsAs expr name ts)
    (h' : ReadsAs expr name' ts') : name = name' ∧ ts = ts' := by
  obtain ⟨rest, hexec, hts⟩ := h
  obtain ⟨rest', hexec', hts'⟩ := h'
  obtain ⟨rfl, rfl⟩ := Prod.mk.inj (Option.some.inj (hexec.symm.trans hexec'))
  exact ⟨rfl, Option.some.inj (hts.symm.trans hts')⟩

/-- **An accepted expression** is one call of `$fromAI` with literal arguments exactly if the name is
spelt as in the data proxy, each word outside quotes is a literal, each string is well-formed, and a
comma stands between any two of them. -/
theorem accepted_isFromAICall_iff (expr : JsString) :
    (isFromAIOnlyExpression expr = true → IsFromAICall expr) ↔
      ∀ name ts, ReadsAs expr name ts →
        name ∈ fromAINames ∧ (∀ t ∈ ts, t.IsLiteral) ∧ Separated true ts := by
  rw [isFromAIOnlyExpression_iff, isFromAICall_iff]
  constructor
  · intro h name ts hreads
    obtain ⟨name', ts', hreads', hcall⟩ := h ⟨name, ts, hreads⟩
    obtain ⟨rfl, rfl⟩ := hreads.unique hreads'
    exact hcall
  · rintro h ⟨name, ts, hreads⟩
    exact ⟨name, ts, hreads, h name ts hreads⟩

/-- A name outside quotes is accepted, and evaluating the expression reads it. -/
def secretCall : JsString := js "={{ $fromAI(secret.key) }}".toList

theorem not_isFromAICall_secret :
    ¬ (isFromAIOnlyExpression secretCall = true → IsFromAICall secretCall) := by
  intro h
  have hword : (js "ecret.key)".toList).takeWhile isWordUnit = js "ecret.key".toList ∧
      (js "ecret.key)".toList).dropWhile isWordUnit = [ascii ')'] := by decide
  have htokens : readTokens none (js "secret.key)".toList) =
      some [.word (js "secret.key".toList)] := by
    rw [show js "secret.key)".toList = ascii 's' :: js "ecret.key)".toList from rfl,
      readTokens_word (by decide), hword.1, hword.2, readTokens_close, if_pos (by decide)]
    rfl
  have hreads : ReadsAs secretCall (js "$fromAI".toList) [.word (js "secret.key".toList)] :=
    ⟨js "secret.key)".toList, by decide, htokens⟩
  obtain ⟨name, ts, hreads', -, hlit, -⟩ :=
    isFromAICall_iff.mp (h (isFromAIOnlyExpression_iff _ |>.mpr ⟨_, _, hreads⟩))
  obtain ⟨-, rfl⟩ := hreads'.unique hreads
  exact absurd (hlit _ List.mem_cons_self) (by simp only [Token.IsLiteral]; decide)

end Call

end N8n.FromAI
