import N8n.Expressions.LiteralArguments

/-!
# The values of strings

What a string literal stands for, by the grammar of the language, beside its text with the
backslashes left out. The two agree where no escape stands for anything but the unit behind the
backslash.

## Main definitions

* `stringValue`: the value of a string
* `unescaped`: the text without the backslashes of its escapes
* `plainEscapes`: each escape stands for the unit behind the backslash

## Main results

* `stringValue_eq`: with plain escapes only, the value is the text without the backslashes
* `plainEscapes_of_unslashed`: otherwise they differ, even if case and backslashes do not count
-/

namespace N8n.FromAI

/-! ## Values -/

def controlEscapes : List (CodeUnit × CodeUnit) :=
  [(ascii 'b', 0x8), (ascii 't', 0x9), (ascii 'n', 0xA), (ascii 'v', 0xB), (ascii 'f', 0xC),
    (ascii 'r', 0xD), (ascii '0', 0x0)]

def isLineTerminator (c : CodeUnit) : Bool := isLineBreak c || c == 0x2028 || c == 0x2029

def codePointUnits (n : ℕ) : JsString :=
  if n < 0x10000 then [UInt16.ofNat n]
  else [UInt16.ofNat (0xD800 + (n - 0x10000) / 0x400),
    UInt16.ofNat (0xDC00 + (n - 0x10000) % 0x400)]

/-- What an escape stands for, and what comes after it. A line terminator stands for nothing. -/
def escapeValue : JsString → JsString × JsString
  | [] => ([], [])
  | c :: rest =>
    if c = ascii 'x' then ([UInt16.ofNat (hexValue (rest.take 2))], rest.drop 2)
    else if c = ascii 'u' then
      if rest.head? = some (ascii '{') then
        (codePointUnits (hexValue ((rest.drop 1).takeWhile isHexDigit)),
          ((rest.drop 1).dropWhile isHexDigit).drop 1)
      else ([UInt16.ofNat (hexValue (rest.take 4))], rest.drop 4)
    else if isLineTerminator c then
      ([], if c = 0xD ∧ rest.head? = some 0xA then rest.drop 1 else rest)
    else ([(controlEscapes.lookup c).getD c], rest)

theorem length_escapeValue_le (text : JsString) : (escapeValue text).2.length ≤ text.length := by
  cases text with
  | nil => exact le_rfl
  | cons c rest =>
    have hdigits := List.length_dropWhile_le isHexDigit (rest.drop 1)
    simp only [escapeValue]
    split_ifs <;> simp only [List.length_drop, List.length_cons] at hdigits ⊢ <;> omega

/-- The value of a string. The line breaks of a template are line feeds. -/
def stringValue (text : JsString) : JsString :=
  match text with
  | [] => []
  | c :: rest =>
    if c = backslash then (escapeValue rest).1 ++ stringValue (escapeValue rest).2
    else if c = 0xD then 0xA :: stringValue (if rest.head? = some 0xA then rest.drop 1 else rest)
    else c :: stringValue rest
termination_by text.length
decreasing_by
  · have := length_escapeValue_le rest
    simp only [List.length_cons]
    omega
  · split <;> simp only [List.length_drop, List.length_cons] <;> omega
  · simp

/-- The text without the backslashes of its escapes. -/
def unescaped : JsString → JsString
  | c :: next :: rest =>
    if c = backslash then next :: unescaped rest else c :: unescaped (next :: rest)
  | text => text

def isPlainEscape (c : CodeUnit) : Bool := c ∉ js "btnvfr0xu".toList && !isLineTerminator c

/-- Each escape stands for the unit behind the backslash, and no line ends in a carriage return. -/
def plainEscapes : JsString → Bool
  | [] => true
  | [c] => c != 0xD
  | c :: next :: rest =>
    if c = backslash then isPlainEscape next && plainEscapes rest
    else c != 0xD && plainEscapes (next :: rest)

/-! ## Values and units -/

section Units

variable {quote c : CodeUnit} {a text rest : JsString}

theorem unescaped_nil : unescaped [] = [] := rfl

theorem unescaped_cons (hc : c ≠ backslash) : unescaped (c :: rest) = c :: unescaped rest := by
  cases rest with
  | nil => rfl
  | cons next rest => rw [unescaped, if_neg hc]

theorem unescaped_escape (c : CodeUnit) (rest : JsString) :
    unescaped (backslash :: c :: rest) = c :: unescaped rest := if_pos rfl

theorem unescaped_append (ha : ∀ c ∈ a, c ≠ backslash) :
    unescaped (a ++ rest) = a ++ unescaped rest := by
  induction a with
  | nil => rfl
  | cons c a ih =>
    obtain ⟨hc, ha⟩ := List.forall_mem_cons.mp ha
    rw [List.cons_append, unescaped_cons hc, ih ha, List.cons_append]

theorem plainEscapes_cons (hc : c ≠ backslash) :
    plainEscapes (c :: rest) = (c != 0xD && plainEscapes rest) := by
  cases rest with
  | nil => rw [plainEscapes, plainEscapes, Bool.and_true]
  | cons next rest => rw [plainEscapes, if_neg hc]

theorem plainEscapes_escape (c : CodeUnit) (rest : JsString) :
    plainEscapes (backslash :: c :: rest) = (isPlainEscape c && plainEscapes rest) := if_pos rfl

theorem stringValue_cons (hc : c ≠ backslash) (hreturn : c ≠ 0xD) :
    stringValue (c :: rest) = c :: stringValue rest := by
  rw [stringValue, if_neg hc, if_neg hreturn]

theorem stringValue_escape : stringValue (backslash :: rest) =
    (escapeValue rest).1 ++ stringValue (escapeValue rest).2 := by
  rw [stringValue, if_pos rfl]

/-- What follows units without a backslash is the text of a string too. -/
theorem StringText.of_append (h : StringText quote (a ++ text)) (ha : ∀ c ∈ a, c ≠ backslash) :
    StringText quote text := by
  induction a with
  | nil => exact h
  | cons c a ih =>
    obtain ⟨hc, ha⟩ := List.forall_mem_cons.mp ha
    rw [List.cons_append] at h
    generalize hs : a ++ text = s at h
    cases h with
    | unit _ _ _ _ h => exact ih (hs ▸ h) ha
    | escape => exact absurd rfl hc
    | lineContinuation => exact absurd rfl hc

end Units

/-! ## Escapes -/

/-- What an escape does to the units: it keeps the one behind the backslash, it stands for another,
or it stands for fewer than there are behind the backslash. -/
inductive EscapeOutcome (c : CodeUnit) (text : JsString) : JsString × JsString → Prop
  | plain (hplain : isPlainEscape c = true) : EscapeOutcome c text ([c], text)
  | control {d : CodeUnit} (hplain : isPlainEscape c = false) (hc : c ≠ backslash)
      (hd : d ≠ backslash) (hne : lower d ≠ lower c) : EscapeOutcome c text ([d], text)
  | fewer {a rest value : JsString} (hplain : isPlainEscape c = false) (hc : c ≠ backslash)
      (htext : text = a ++ rest) (ha : ∀ d ∈ a, d ≠ backslash)
      (hlength : value.length < (c :: a).length) : EscapeOutcome c text (value, rest)

section Escapes

variable {quote c : CodeUnit} {text : JsString}

theorem ne_backslash_of_isHexDigit (h : isHexDigit c) : c ≠ backslash := by
  rintro rfl
  exact absurd h (by decide)

theorem forall_mem_lineFeed : ∀ c ∈ [(0xA : CodeUnit)], c ≠ backslash :=
  List.forall_mem_singleton.mpr (by decide)

theorem length_codePointUnits_le (n : ℕ) : (codePointUnits n).length ≤ 2 := by
  unfold codePointUnits
  split <;> simp

theorem EscapeOutcome.digits {n value : ℕ} (hplain : isPlainEscape c = false) (hc : c ≠ backslash)
    (h : (text.take n).length == n && (text.take n).all isHexDigit) (hn : 0 < n) :
    EscapeOutcome c text ([UInt16.ofNat value], text.drop n) := by
  rw [Bool.and_eq_true, beq_iff_eq] at h
  refine .fewer hplain hc (List.take_append_drop n text).symm
    (fun d hd => ne_backslash_of_isHexDigit (List.all_eq_true.mp h.2 d hd)) ?_
  rw [@List.length_cons _ c, h.1]
  exact Nat.succ_lt_succ hn

/-- A code point between braces. -/
theorem EscapeOutcome.braces {rest : JsString} (hdigits : rest.takeWhile isHexDigit ≠ [])
    (hclose : (rest.dropWhile isHexDigit).head? = some (ascii '}')) (n : ℕ) :
    EscapeOutcome (ascii 'u') (ascii '{' :: rest)
      (codePointUnits n, (rest.dropWhile isHexDigit).drop 1) := by
  obtain ⟨after, hafter⟩ := List.head?_eq_some_iff.mp hclose
  have hsplit := List.takeWhile_append_dropWhile (p := isHexDigit) (l := rest)
  rw [hafter] at hsplit ⊢
  refine @fewer _ _ (ascii '{' :: (rest.takeWhile isHexDigit ++ [ascii '}'])) _ _ (by decide)
    (by decide) ?_ ?_ ?_
  · simp [hsplit]
  · intro d hd
    rcases List.mem_cons.mp hd with rfl | hd
    · decide
    · rcases List.mem_append.mp hd with hd | hd
      · exact ne_backslash_of_isHexDigit (List.mem_takeWhile_imp hd)
      · obtain rfl := List.mem_singleton.mp hd
        decide
  · -- it has two units at most, and there is a digit between the braces
    have hpos := List.length_pos_iff.mpr hdigits
    have hunits := length_codePointUnits_le n
    simp only [List.length_cons, List.length_append, List.length_nil]
    omega

theorem EscapeOutcome.terminator (h : isLineTerminator c = true) : EscapeOutcome c text
    ([], if c = 0xD ∧ text.head? = some 0xA then text.drop 1 else text) := by
  have hplain : isPlainEscape c = false := by
    rw [isPlainEscape, h]
    exact Bool.and_false _
  have hslash : c ≠ backslash := by
    rintro rfl
    exact absurd h (by decide)
  split_ifs with hfeed
  · obtain ⟨rest, rfl⟩ := List.head?_eq_some_iff.mp hfeed.2
    exact @fewer _ _ [0xA] _ _ hplain hslash rfl forall_mem_lineFeed (by simp)
  · exact @fewer _ _ [] _ _ hplain hslash rfl (fun _ h => absurd h List.not_mem_nil) (by simp)

theorem EscapeOutcome.single (hx : c ≠ ascii 'x') (hu : c ≠ ascii 'u')
    (hline : ¬ isLineTerminator c = true) :
    EscapeOutcome c text ([(controlEscapes.lookup c).getD c], text) := by
  by_cases hcontrol : c ∈ js "btnvfr0".toList
  · have hmem : c = ascii 'b' ∨ c = ascii 't' ∨ c = ascii 'n' ∨ c = ascii 'v' ∨ c = ascii 'f' ∨
        c = ascii 'r' ∨ c = ascii '0' := by simpa [js] using hcontrol
    rcases hmem with rfl | rfl | rfl | rfl | rfl | rfl | rfl <;>
      exact control (by decide) (by decide) (by decide) (by decide)
  · have hlookup : controlEscapes.lookup c = none := by
      rw [List.lookup_eq_none_iff]
      intro p hp
      have hkeys : controlEscapes.map Prod.fst = js "btnvfr0".toList := by decide
      rw [bne_iff_ne]
      rintro rfl
      exact hcontrol (hkeys ▸ List.mem_map_of_mem hp)
    rw [hlookup]
    apply plain
    rw [isPlainEscape, Bool.eq_false_iff.mpr hline, Bool.not_false, Bool.and_true,
      decide_eq_true_iff]
    intro hmem
    have hsplit : js "btnvfr0xu".toList = js "btnvfr0".toList ++ [ascii 'x', ascii 'u'] := rfl
    rw [hsplit, List.mem_append, List.mem_cons, List.mem_singleton] at hmem
    rcases hmem with h | h | h
    · exact hcontrol h
    · exact hx h
    · exact hu h

theorem escapeOutcome (h : isEscape (c :: text)) :
    EscapeOutcome c text (escapeValue (c :: text)) := by
  simp only [isEscape] at h
  simp only [escapeValue]
  by_cases hx : c = ascii 'x'
  · subst hx
    rw [if_pos rfl] at h ⊢
    exact .digits (by decide) (by decide) h (by decide)
  rw [if_neg hx] at h ⊢
  by_cases hu : c = ascii 'u'
  · subst hu
    rw [if_pos rfl] at h ⊢
    by_cases hbrace : text.head? = some (ascii '{')
    · obtain ⟨rest, rfl⟩ := List.head?_eq_some_iff.mp hbrace
      rw [if_pos hbrace] at h ⊢
      simp only [List.drop_succ_cons, List.drop_zero, Bool.and_eq_true, bne_iff_ne, beq_iff_eq] at h
      exact .braces h.1.1 h.2 _
    · rw [if_neg hbrace] at h ⊢
      exact .digits (by decide) (by decide) h (by decide)
  rw [if_neg hu]
  by_cases hline : isLineTerminator c = true
  · rw [if_pos hline]
    exact .terminator hline
  · rw [if_neg hline]
    exact .single hx hu hline

end Escapes

/-! ## Values and texts -/

def unslashed (text : JsString) : JsString := text.filter (· != backslash)

section Values

variable {quote c d : CodeUnit} {text rest a value : JsString}

theorem unslashed_append : unslashed (a ++ rest) = unslashed a ++ unslashed rest :=
  List.filter_append _ _

theorem unslashed_eq_self (h : ∀ c ∈ a, c ≠ backslash) : unslashed a = a :=
  List.filter_eq_self.mpr fun c hc => bne_iff_ne.mpr (h c hc)

structure Compared (text : JsString) : Prop where
  length_le : (unslashed (stringValue text)).length ≤ (unslashed (unescaped text)).length
  same : plainEscapes text = true → stringValue text = unescaped text
  plain : (unslashed (stringValue text)).map lower = (unslashed (unescaped text)).map lower →
    plainEscapes text = true

/-- The same units come first in both. -/
theorem Compared.cons (h : Compared rest) (hvalue : stringValue text = c :: stringValue rest)
    (hunits : unescaped text = c :: unescaped rest)
    (hplain : plainEscapes text = plainEscapes rest) : Compared text := by
  rw [← List.singleton_append] at hvalue hunits
  refine ⟨?_, fun htext => ?_, fun heq => ?_⟩
  · rw [hvalue, hunits, unslashed_append, unslashed_append, List.length_append, List.length_append]
    exact Nat.add_le_add_left h.length_le _
  · rw [hvalue, hunits, h.same (hplain ▸ htext)]
  · rw [hvalue, hunits, unslashed_append, unslashed_append, List.map_append, List.map_append,
      List.append_cancel_left_eq] at heq
    rw [hplain]
    exact h.plain heq

/-- Another unit comes first in the value. -/
theorem Compared.replaced (h : Compared rest) (hvalue : stringValue text = d :: stringValue rest)
    (hunits : unescaped text = c :: unescaped rest) (hplain : plainEscapes text = false)
    (hc : c ≠ backslash) (hd : d ≠ backslash) (hne : lower d ≠ lower c) : Compared text := by
  have hvalue' : unslashed (stringValue text) = d :: unslashed (stringValue rest) := by
    rw [hvalue]
    exact List.filter_cons_of_pos (bne_iff_ne.mpr hd)
  have hunits' : unslashed (unescaped text) = c :: unslashed (unescaped rest) := by
    rw [hunits]
    exact List.filter_cons_of_pos (bne_iff_ne.mpr hc)
  refine ⟨?_, fun htext => ?_, fun heq => ?_⟩
  · rw [hvalue', hunits']
    exact Nat.succ_le_succ h.length_le
  · rw [hplain] at htext
    cases htext
  · rw [hvalue', hunits', List.map_cons, List.map_cons] at heq
    exact absurd (List.cons.inj heq).1 hne

/-- Fewer units come first in the value. -/
theorem Compared.fewer (h : Compared rest) (hvalue : stringValue text = value ++ stringValue rest)
    (hunits : unescaped text = a ++ unescaped rest) (hplain : plainEscapes text = false)
    (ha : ∀ c ∈ a, c ≠ backslash) (hlength : value.length < a.length) : Compared text := by
  have hshort : (unslashed (stringValue text)).length < (unslashed (unescaped text)).length := by
    have hle := List.length_filter_le (· != backslash) value
    have hrest := h.length_le
    rw [hvalue, hunits, unslashed_append, unslashed_append, unslashed_eq_self ha,
      List.length_append, List.length_append]
    unfold unslashed at hrest ⊢
    omega
  refine ⟨hshort.le, fun htext => ?_, fun heq => ?_⟩
  · rw [hplain] at htext
    cases htext
  · have hsame := congrArg List.length heq
    rw [List.length_map, List.length_map] at hsame
    omega

theorem compared_nil : Compared [] := by
  have hvalue : stringValue [] = unescaped [] := by
    rw [stringValue]
    rfl
  refine ⟨?_, fun _ => hvalue, fun _ => rfl⟩
  rw [hvalue]

theorem compared_escape (hescape : isEscape (c :: text))
    (hrest : Compared (escapeValue (c :: text)).2) : Compared (backslash :: c :: text) := by
  have hvalue := @stringValue_escape (c :: text)
  have hunits := unescaped_escape c text
  have hplain := plainEscapes_escape c text
  have houtcome := escapeOutcome hescape
  generalize escapeValue (c :: text) = outcome at hrest hvalue houtcome
  cases houtcome with
  | plain hc =>
    rw [hc, Bool.true_and] at hplain
    exact hrest.cons hvalue hunits hplain
  | control hc hslash hd hne =>
    rw [hc, Bool.false_and] at hplain
    exact hrest.replaced hvalue hunits hplain hslash hd hne
  | @fewer a rest value hc hslash htext ha hlength =>
    rw [hc, Bool.false_and] at hplain
    have htail : unescaped text = a ++ unescaped rest := by rw [htext, unescaped_append ha]
    rw [htail] at hunits
    exact @Compared.fewer _ _ (c :: a) _ hrest hvalue hunits hplain
      (List.forall_mem_cons.mpr ⟨hslash, ha⟩) hlength

/-- The induction is on the length: an escape takes as many units as it has. -/
theorem compared (h : StringText quote text) : Compared text := by
  induction hn : text.length using Nat.strong_induction_on generalizing text with
  | _ n ih =>
    cases h with
    | nil => exact compared_nil
    | @unit c text hquote hslash hline hinter h =>
      have hrest := ih _ (hn ▸ Nat.lt_succ_self _) h rfl
      by_cases hreturn : c = 0xD
      · subst hreturn
        have hplain : plainEscapes (0xD :: text) = false := plainEscapes_cons hslash
        by_cases hfeed : text.head? = some 0xA
        · -- two units are one line feed
          obtain ⟨rest, rfl⟩ := List.head?_eq_some_iff.mp hfeed
          have hlt : rest.length < n := by
            rw [← hn, List.length_cons, List.length_cons]
            omega
          have hafter := ih _ hlt (@StringText.of_append _ [0xA] _ h forall_mem_lineFeed) rfl
          have hbreak : ∀ c ∈ [(0xD : CodeUnit), 0xA], c ≠ backslash :=
            List.forall_mem_cons.mpr ⟨hslash, forall_mem_lineFeed⟩
          refine @Compared.fewer _ _ [0xD, 0xA] [0xA] hafter ?_ ?_ hplain hbreak Nat.one_lt_two
          · rw [stringValue, if_neg hslash, if_pos rfl, if_pos hfeed]
            rfl
          · exact @unescaped_append [0xD, 0xA] rest hbreak
        · have hvalue : stringValue (0xD :: text) = 0xA :: stringValue text := by
            rw [stringValue, if_neg hslash, if_pos rfl, if_neg hfeed]
          exact hrest.replaced hvalue (unescaped_cons hslash) hplain hslash (by decide) (by decide)
      · refine hrest.cons (stringValue_cons hslash hreturn) (unescaped_cons hslash) ?_
        rw [plainEscapes_cons hslash, bne_iff_ne.mpr hreturn, Bool.true_and]
    | @escape c text hescape h =>
      apply compared_escape hescape
      have houtcome := escapeOutcome hescape
      have hle := length_escapeValue_le (c :: text)
      generalize escapeValue (c :: text) = outcome at houtcome hle ⊢
      have hlt : outcome.2.length < n := by
        rw [← hn]
        exact Nat.lt_succ_of_le hle
      cases houtcome with
      | plain => exact ih _ hlt h rfl
      | control => exact ih _ hlt h rfl
      | fewer _ _ htext ha => exact ih _ hlt (StringText.of_append (htext ▸ h) ha) rfl
    | @lineContinuation text h =>
      have hescape : isEscape (0xD :: 0xA :: text) = true := rfl
      apply compared_escape hescape
      exact ih text.length (by rw [← hn]; simp; omega) h rfl

/-- With plain escapes only, the value is the text without the backslashes. -/
theorem stringValue_eq (h : StringText quote text) (hplain : plainEscapes text = true) :
    stringValue text = unescaped text := (compared h).same hplain

/-- **Other escapes show** in the value, even if neither case nor backslashes count. -/
theorem plainEscapes_of_unslashed (h : StringText quote text)
    (heq : (unslashed (stringValue text)).map lower = (unslashed (unescaped text)).map lower) :
    plainEscapes text = true := (compared h).plain heq

end Values

end N8n.FromAI
