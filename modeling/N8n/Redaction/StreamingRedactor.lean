import N8n.Common.JsString
import Mathlib.Data.List.Induction
import Mathlib.Tactic.ByContra
import Mathlib.Tactic.SplitIfs

/-!
# Redaction of streamed text

Text that arrives in fragments is buffered, cut, and redacted segment by segment. A cut is made at
the last white space before the text that is held back, and is then moved to the start of a match
that it would fall into. The matches are visited once, in the order of the table of patterns, so that
a cut can be moved into a match that was visited before.

## Main definitions

* `RedactionPattern`, `findMatchRanges`, `redactText`: patterns and what they match
* `StreamingRedactor`, `push`, `flush`: the buffer and its cuts
* `Safe`: a position that is neither inside a token nor inside a match
* `PullsToSafe`: some of the matches, in their order, lead to a safe position

## Main results

* `pull_safe_iff`: one pass over the matches ends at a safe position exactly if they lead to one
* `cutsSafely_iff`: a stream is cut safely exactly if this holds at each of its cuts
* `not_cutsSafely`: a cut inside a match, and a cut inside a token
-/

namespace N8n.Redaction

/-! ## Patterns -/

inductive PiiDetectionType
  | email | phone | creditCard | ssnUs | iban | cryptoWallet | ip | mac | url
deriving DecidableEq, Repr

inductive RedactionCategory
  | secret
  | pii (type : PiiDetectionType)
deriving DecidableEq, Repr

/-- A pattern. `exec` is that of its global regular expression, with the index to start at: the index
and the length of the next match. -/
structure RedactionPattern where
  category : RedactionCategory
  exec : JsString → ℕ → Option (ℕ × ℕ)
  validate : Option (JsString → Bool)
  exec_bounds : ∀ input lastIndex index length, exec input lastIndex = some (index, length) →
    lastIndex ≤ index ∧ index + length ≤ input.length

/-- The options, with the table of patterns and what is left of a URL without its sensitive parts. -/
structure RedactionOptions where
  secrets : Option Bool
  detect : List PiiDetectionType
  placeholder : Option JsString
  preserveUrlStructure : Bool
  secretPatterns : List RedactionPattern
  piiPatterns : PiiDetectionType → Option RedactionPattern
  stripUrlSensitiveParts : JsString → JsString → JsString

structure RedactionResult where
  text : JsString
  categories : List RedactionCategory
deriving DecidableEq, Repr

def resolvePatterns (options : RedactionOptions) : List RedactionPattern :=
  (if options.secrets.getD true then options.secretPatterns else []) ++
    options.detect.filterMap options.piiPatterns

namespace RedactionPattern

variable (pattern : RedactionPattern) (input : JsString)

/-- The matches from an index on, as start and length. After an empty match the scan goes on one unit
later. -/
def matchesFrom : ℕ → ℕ → List (ℕ × ℕ)
  | 0, _ => []
  | fuel + 1, lastIndex =>
    match pattern.exec input lastIndex with
    | none => []
    | some (index, length) =>
      (index, length) :: matchesFrom fuel (if length = 0 then index + 1 else index + length)

/-- All matches. Each of them moves the index on, so that this many steps are enough. -/
def allMatches : List (ℕ × ℕ) := pattern.matchesFrom input (input.length + 2) 0

def accepts (text : JsString) : Bool := pattern.validate.elim true fun validate => validate text

end RedactionPattern

def slice (text : JsString) (start stop : ℕ) : JsString := (text.take stop).drop start

def findMatchRanges (input : JsString) (options : RedactionOptions) : List (ℕ × ℕ) :=
  (resolvePatterns options).flatMap fun pattern =>
    ((pattern.allMatches input).filter fun found => found.2 ≠ 0 ∧
      pattern.accepts (slice input found.1 (found.1 + found.2))).map fun found =>
        (found.1, found.1 + found.2)

/-! ## Redaction -/

def DEFAULT_PLACEHOLDER : JsString := js "[REDACTED]".toList

/-- One pattern. What is between the matches stays. -/
def redactPattern (options : RedactionOptions) (pattern : RedactionPattern)
    (result : RedactionResult) : RedactionResult :=
  let placeholder := options.placeholder.getD DEFAULT_PLACEHOLDER
  let pieces := (pattern.allMatches result.text).foldl
    (fun (done : ℕ × RedactionResult) found =>
      let before := slice result.text done.1 found.1
      let text := slice result.text found.1 (found.1 + found.2)
      let replaced : JsString × List RedactionCategory :=
        if ¬ pattern.accepts text then (text, [])
        else if options.preserveUrlStructure ∧ pattern.category = .pii .url then
          let rebuilt := options.stripUrlSensitiveParts text placeholder
          (rebuilt, if rebuilt ≠ text then [pattern.category] else [])
        else (placeholder, [pattern.category])
      (found.1 + found.2,
        ⟨done.2.text ++ before ++ replaced.1, done.2.categories ++ replaced.2⟩))
    (0, ⟨[], result.categories⟩)
  ⟨pieces.2.text ++ result.text.drop pieces.1, pieces.2.categories⟩

/-- Redact a text. URLs come first. -/
def redactText (input : JsString) (options : RedactionOptions) : RedactionResult :=
  let patterns := resolvePatterns options
  let ordered := patterns.filter (fun pattern => pattern.category = .pii .url) ++
    patterns.filter fun pattern => pattern.category ≠ .pii .url
  ordered.foldl (fun result pattern => redactPattern options pattern result) ⟨input, []⟩

/-! ## Streams -/

structure StreamingRedactor where
  buffer : JsString
  holdback : ℕ

namespace StreamingRedactor

/-- A negative holdback counts as none. -/
def new (holdback : ℤ) : StreamingRedactor := ⟨[], holdback.toNat⟩

/-- The last position at or before `cut` that follows white space. -/
def lastWhitespace (buffer : JsString) : ℕ → ℕ
  | 0 => 0
  | cut + 1 => if buffer[cut]?.any isSpace then cut + 1 else lastWhitespace buffer cut

/-- A cut inside a match is moved to its start. -/
def pull (cut : ℕ) (range : ℕ × ℕ) : ℕ := if range.1 < cut ∧ cut < range.2 then range.1 else cut

variable (options : RedactionOptions) (r : StreamingRedactor)

def cutAt : ℕ :=
  (findMatchRanges r.buffer options).foldl pull
    (lastWhitespace r.buffer (r.buffer.length - r.holdback))

/-- Feed the next fragment: what is cut off, `none` where everything stays in the buffer. -/
def push (delta : JsString) : StreamingRedactor × Option JsString :=
  let r := { r with buffer := r.buffer ++ delta }
  if r.buffer.length ≤ r.holdback then (r, none)
  else
    let cut := r.cutAt options
    if cut = 0 then (r, none)
    else ({ r with buffer := r.buffer.drop cut }, some (r.buffer.take cut))

/-- Release the remainder. -/
def flush : StreamingRedactor × Option JsString :=
  ({ r with buffer := [] }, if r.buffer = [] then none else some r.buffer)

/-- What a call of `push` or `flush` returns for the segment that it releases. -/
def released (segment : Option JsString) : RedactionResult :=
  segment.elim ⟨[], []⟩ fun text => redactText text options

end StreamingRedactor

/-! ## One pass over the matches -/

section Pull

open StreamingRedactor (pull)

variable {ranges chain : List (ℕ × ℕ)} {p q cut : ℕ}

def Inside (range : ℕ × ℕ) (position : ℕ) : Prop := range.1 < position ∧ position < range.2

instance (range : ℕ × ℕ) (position : ℕ) : Decidable (Inside range position) :=
  inferInstanceAs (Decidable (_ ∧ _))

/-- Each match contains the position that the one before was moved to, and the last one starts at
the end. -/
inductive Leads : List (ℕ × ℕ) → ℕ → ℕ → Prop
  | nil {p : ℕ} : Leads [] p p
  | cons {range : ℕ × ℕ} {chain : List (ℕ × ℕ)} {p q : ℕ} :
    Inside range p → Leads chain range.1 q → Leads (range :: chain) p q

theorem pull_le (cut : ℕ) (range : ℕ × ℕ) : pull cut range ≤ cut := by
  unfold pull
  split_ifs with h
  · exact h.1.le
  · exact le_rfl

/-- A cut before another one is not overtaken. -/
theorem pull_mono (h : p ≤ q) (range : ℕ × ℕ) : pull p range ≤ pull q range := by
  unfold pull
  split_ifs with hp hq hq
  · exact le_rfl
  · exact hp.1.le.trans h
  · -- the later cut is moved to a start that is not before the earlier cut
    by_contra hlt
    exact hp ⟨not_le.mp hlt, h.trans_lt hq.2⟩
  · exact h

theorem foldl_pull_le (ranges : List (ℕ × ℕ)) (cut : ℕ) : ranges.foldl pull cut ≤ cut := by
  induction ranges generalizing cut with
  | nil => exact le_rfl
  | cons range ranges ih => exact (ih _).trans (pull_le cut range)

/-- A position that is in no match stops the cut. -/
theorem le_foldl_pull (hp : ∀ range ∈ ranges, ¬ Inside range p) (h : p ≤ cut) :
    p ≤ ranges.foldl pull cut := by
  induction ranges generalizing cut with
  | nil => exact h
  | cons range ranges ih =>
    refine ih (fun r hr => hp r (List.mem_cons_of_mem _ hr)) ?_
    unfold pull
    split_ifs with hcut
    · by_contra hlt
      exact hp range List.mem_cons_self ⟨not_le.mp hlt, h.trans_lt hcut.2⟩
    · exact h

theorem Leads.le (h : Leads chain p q) : q ≤ p := by
  induction h with
  | nil => exact le_rfl
  | cons hinside _ ih => exact ih.trans hinside.1.le

/-- The pass gets at least as far as any of the matches lead, in their order. -/
theorem foldl_pull_le_of_leads (hsub : chain.Sublist ranges) (h : Leads chain p q)
    (hcut : cut ≤ p) : ranges.foldl pull cut ≤ q := by
  induction hsub generalizing p cut with
  | slnil =>
    cases h
    exact hcut
  | cons range _ ih => exact ih h ((pull_le cut range).trans hcut)
  | cons_cons range _ ih =>
    obtain _ | ⟨hinside, hrest⟩ := h
    refine ih hrest ((pull_mono hcut range).trans (le_of_eq ?_))
    exact if_pos hinside

/-- The matches that move the cut lead to where it ends. -/
theorem exists_leads (ranges : List (ℕ × ℕ)) (cut : ℕ) :
    ∃ chain, chain.Sublist ranges ∧ Leads chain cut (ranges.foldl pull cut) := by
  induction ranges generalizing cut with
  | nil => exact ⟨[], .slnil, .nil⟩
  | cons range ranges ih =>
    obtain ⟨chain, hsub, hleads⟩ := ih (pull cut range)
    rw [List.foldl_cons]
    by_cases hinside : Inside range cut
    · have hpull : pull cut range = range.1 := if_pos hinside
      rw [hpull] at hleads ⊢
      exact ⟨range :: chain, hsub.cons_cons range, .cons hinside hleads⟩
    · have hpull : pull cut range = cut := if_neg hinside
      rw [hpull] at hleads ⊢
      exact ⟨chain, hsub.cons range, hleads⟩

/-- **One pass** over the matches ends at a good position in none of them exactly if some of them
lead, in their order, to such a position. -/
theorem pull_safe_iff {Good : ℕ → Prop} :
    (Good (ranges.foldl pull cut) ∧ ∀ range ∈ ranges, ¬ Inside range (ranges.foldl pull cut)) ↔
      ∃ chain p, chain.Sublist ranges ∧ Leads chain cut p ∧ Good p ∧
        ∀ range ∈ ranges, ¬ Inside range p := by
  constructor
  · rintro ⟨hgood, houtside⟩
    obtain ⟨chain, hsub, hleads⟩ := exists_leads ranges cut
    exact ⟨chain, _, hsub, hleads, hgood, houtside⟩
  · rintro ⟨chain, p, hsub, hleads, hgood, houtside⟩
    have heq : ranges.foldl pull cut = p := le_antisymm
      (foldl_pull_le_of_leads hsub hleads le_rfl) (le_foldl_pull houtside hleads.le)
    rw [heq]
    exact ⟨hgood, houtside⟩

end Pull

/-! ## Safe cuts -/

section Streams

open StreamingRedactor (lastWhitespace pull new)

variable {options : RedactionOptions} {r : StreamingRedactor} {text buffer emitted later : JsString}

/-- Between two units that are no white space. -/
def InsideToken (text : JsString) (position : ℕ) : Prop :=
  0 < position ∧ text[position - 1]?.any (fun c => !isSpace c) ∧
    text[position]?.any (fun c => !isSpace c)

instance (text : JsString) (position : ℕ) : Decidable (InsideToken text position) :=
  inferInstanceAs (Decidable (_ ∧ _ ∧ _))

def Safe (options : RedactionOptions) (buffer : JsString) (position : ℕ) : Prop :=
  ¬ InsideToken buffer position ∧
    ∀ range ∈ findMatchRanges buffer options, ¬ Inside range position

/-- Some of the matches, in the order of the table, lead from the white space to a safe position. -/
def PullsToSafe (options : RedactionOptions) (r : StreamingRedactor) : Prop :=
  ∃ chain p, chain.Sublist (findMatchRanges r.buffer options) ∧
    Leads chain (lastWhitespace r.buffer (r.buffer.length - r.holdback)) p ∧
    Safe options r.buffer p

/-- The redactor after some fragments, and the segments released so far. -/
def streamed (options : RedactionOptions) (holdback : ℤ) (fragments : List JsString) :
    StreamingRedactor × List JsString :=
  fragments.foldl (fun state delta =>
    let pushed := state.1.push options delta
    (pushed.1, state.2 ++ pushed.2.toList)) (new holdback, [])

/-- All segments that are handed to `redactText`. -/
def segments (options : RedactionOptions) (holdback : ℤ) (fragments : List JsString) :
    List JsString :=
  (streamed options holdback fragments).2 ++
    (streamed options holdback fragments).1.flush.2.toList

/-- The segments make up the text. No boundary between two of them is inside a token of the text, or
inside a match in the buffer at the moment of the cut. -/
def CutsSafely (options : RedactionOptions) (holdback : ℤ) (fragments : List JsString) : Prop :=
  (segments options holdback fragments).flatten = fragments.flatten ∧
  ∀ before delta after, fragments = before ++ delta :: after →
    ∀ segment ∈ ((streamed options holdback before).1.push options delta).2,
      ¬ InsideToken fragments.flatten
        ((streamed options holdback before).2.flatten.length + segment.length) ∧
      ∀ range ∈ findMatchRanges ((streamed options holdback before).1.buffer ++ delta) options,
        ¬ Inside range segment.length

theorem streamed_concat (holdback : ℤ) (before : List JsString) (delta : JsString) :
    streamed options holdback (before ++ [delta]) =
      (((streamed options holdback before).1.push options delta).1,
        (streamed options holdback before).2 ++
          ((streamed options holdback before).1.push options delta).2.toList) := by
  rw [streamed, List.foldl_append]
  rfl

/-- A push releases the front of the buffer and keeps the rest. -/
theorem push_cases (r : StreamingRedactor) (delta : JsString) :
    (r.push options delta = (⟨r.buffer ++ delta, r.holdback⟩, none) ∧
      ((r.buffer ++ delta).length ≤ r.holdback ∨
        (⟨r.buffer ++ delta, r.holdback⟩ : StreamingRedactor).cutAt options = 0)) ∨
    ∃ cut, cut = (⟨r.buffer ++ delta, r.holdback⟩ : StreamingRedactor).cutAt options ∧ cut ≠ 0 ∧
      ¬ (r.buffer ++ delta).length ≤ r.holdback ∧
      r.push options delta = (⟨(r.buffer ++ delta).drop cut, r.holdback⟩,
        some ((r.buffer ++ delta).take cut)) := by
  by_cases hlength : (r.buffer ++ delta).length ≤ r.holdback
  · refine .inl ⟨?_, .inl hlength⟩
    exact if_pos hlength
  by_cases hcut : (⟨r.buffer ++ delta, r.holdback⟩ : StreamingRedactor).cutAt options = 0
  · refine .inl ⟨?_, .inr hcut⟩
    exact (if_neg hlength).trans (if_pos hcut)
  · refine .inr ⟨_, rfl, hcut, hlength, ?_⟩
    exact (if_neg hlength).trans (if_neg hcut)

theorem push_append (r : StreamingRedactor) (delta : JsString) :
    (r.push options delta).2.toList.flatten ++ (r.push options delta).1.buffer =
      r.buffer ++ delta := by
  rcases @push_cases options r delta with ⟨hpush, -⟩ | ⟨cut, -, -, -, hpush⟩
  · rw [hpush]
    rfl
  · rw [hpush]
    simp

/-- What was released and what is in the buffer make up the text so far. -/
theorem streamed_append (holdback : ℤ) (fragments : List JsString) :
    (streamed options holdback fragments).2.flatten ++
      (streamed options holdback fragments).1.buffer = fragments.flatten := by
  induction fragments using List.reverseRecOn with
  | nil => rfl
  | append_singleton before delta ih =>
    rw [streamed_concat, List.flatten_append, List.append_assoc, push_append, ← List.append_assoc,
      ih, List.flatten_append, List.flatten_singleton]

theorem segments_flatten (holdback : ℤ) (fragments : List JsString) :
    (segments options holdback fragments).flatten = fragments.flatten := by
  rw [← @streamed_append options holdback fragments, segments, List.flatten_append]
  congr 1
  unfold StreamingRedactor.flush
  split_ifs with h
  · rw [h]
    rfl
  · exact List.flatten_singleton

/-! ## The position of a cut -/

theorem lastWhitespace_le (buffer : JsString) (cut : ℕ) : lastWhitespace buffer cut ≤ cut := by
  induction cut with
  | zero => exact le_rfl
  | succ cut ih =>
    rw [lastWhitespace]
    split_ifs
    · exact le_rfl
    · exact ih.trans (Nat.le_succ cut)

/-- What it finds follows white space. -/
theorem isSpace_lastWhitespace (buffer : JsString) (cut : ℕ) (h : lastWhitespace buffer cut ≠ 0) :
    buffer[lastWhitespace buffer cut - 1]?.any isSpace := by
  induction cut with
  | zero => exact absurd rfl h
  | succ cut ih =>
    rw [lastWhitespace] at h ⊢
    split_ifs at h ⊢ with hspace
    · exact hspace
    · exact ih h

theorem cutAt_le (r : StreamingRedactor) : r.cutAt options ≤ r.buffer.length :=
  (foldl_pull_le _ _).trans ((lastWhitespace_le _ _).trans (Nat.sub_le _ _))

/-- A cut at the end of the buffer follows white space. -/
theorem isSpace_cutAt (h : r.cutAt options = r.buffer.length) (hne : r.cutAt options ≠ 0) :
    r.buffer[r.cutAt options - 1]?.any isSpace := by
  have hle := lastWhitespace_le r.buffer (r.buffer.length - r.holdback)
  have hpull := foldl_pull_le (findMatchRanges r.buffer options)
    (lastWhitespace r.buffer (r.buffer.length - r.holdback))
  have heq : r.cutAt options = lastWhitespace r.buffer (r.buffer.length - r.holdback) := by
    refine le_antisymm hpull ?_
    rw [h]
    exact hle.trans (Nat.sub_le _ _)
  rw [heq] at hne ⊢
  exact isSpace_lastWhitespace _ _ hne

/-- A token of the text is seen in the buffer. -/
theorem insideToken_append {cut : ℕ} (hne : cut ≠ 0) (hle : cut ≤ buffer.length)
    (hend : cut = buffer.length → buffer[cut - 1]?.any isSpace) :
    InsideToken (emitted ++ buffer ++ later) (emitted.length + cut) ↔ InsideToken buffer cut := by
  have hbefore : (emitted ++ buffer ++ later)[emitted.length + cut - 1]? = buffer[cut - 1]? := by
    have hidx : emitted.length + cut - 1 = emitted.length + (cut - 1) := by omega
    rw [hidx, List.append_assoc, List.getElem?_append_right (Nat.le_add_right _ _),
      Nat.add_sub_cancel_left, List.getElem?_append_left (by omega)]
  unfold InsideToken
  rw [hbefore]
  by_cases hlt : cut < buffer.length
  · rw [List.append_assoc, List.getElem?_append_right (Nat.le_add_right _ _),
      Nat.add_sub_cancel_left, List.getElem?_append_left hlt]
    have hpos : 0 < emitted.length + cut ↔ 0 < cut := by omega
    rw [hpos]
  · -- at the end there is white space on the left
    have hspace := hend (by omega)
    have hnot : ¬ buffer[cut - 1]?.any (fun c => !isSpace c) := by
      cases hc : buffer[cut - 1]? with
      | none => simp
      | some c =>
        rw [hc] at hspace
        simpa using hspace
    simp [hnot]

/-- **Safe cuts.** A stream is cut safely exactly if, whenever the buffer is long enough to be cut,
some of its matches lead, in the order of the table, from the last white space to a safe position. -/
theorem cutsSafely_iff (options : RedactionOptions) (holdback : ℤ) (fragments : List JsString) :
    CutsSafely options holdback fragments ↔
      ∀ before delta after, fragments = before ++ delta :: after →
        (streamed options holdback before).1.holdback <
          ((streamed options holdback before).1.buffer ++ delta).length →
        PullsToSafe options ⟨(streamed options holdback before).1.buffer ++ delta,
          (streamed options holdback before).1.holdback⟩ := by
  have hsafe : ∀ r : StreamingRedactor, PullsToSafe options r ↔
      Safe options r.buffer (r.cutAt options) := by
    intro r
    exact pull_safe_iff.symm
  -- one cut, in the buffer and in the text
  have hcut : ∀ before delta after, fragments = before ++ delta :: after →
      ∀ cut, cut = (⟨(streamed options holdback before).1.buffer ++ delta,
        (streamed options holdback before).1.holdback⟩ : StreamingRedactor).cutAt options →
      cut ≠ 0 →
      (InsideToken fragments.flatten
          ((streamed options holdback before).2.flatten.length + cut) ↔
        InsideToken ((streamed options holdback before).1.buffer ++ delta) cut) := by
    intro before delta after hfragments cut hcut hne
    have htext : fragments.flatten = (streamed options holdback before).2.flatten ++
        ((streamed options holdback before).1.buffer ++ delta) ++ after.flatten := by
      rw [hfragments, List.flatten_append, List.flatten_cons,
        ← @streamed_append options holdback before]
      simp only [List.append_assoc]
    rw [htext]
    refine insideToken_append hne ?_ ?_
    · rw [hcut]
      exact cutAt_le _
    · intro hend
      rw [hcut] at hend hne ⊢
      exact isSpace_cutAt hend hne
  constructor
  · rintro ⟨-, hall⟩ before delta after hfragments hlength
    rw [hsafe]
    rcases @push_cases options (streamed options holdback before).1 delta with
      ⟨-, hzero⟩ | ⟨cut, hcutAt, hne, -, hpush⟩
    · rcases hzero with hle | hzero
      · exact absurd hlength (not_lt.mpr hle)
      · rw [hzero]
        refine ⟨fun h => absurd h.1 (Nat.lt_irrefl 0), fun range _ h => ?_⟩
        exact absurd h.1 (Nat.not_lt_zero _)
    · have hlen : ((streamed options holdback before).1.buffer ++ delta).length ≥ cut := by
        rw [hcutAt]
        exact cutAt_le _
      obtain ⟨htoken, hmatch⟩ := hall before delta after hfragments
        (((streamed options holdback before).1.buffer ++ delta).take cut) (by rw [hpush]; rfl)
      rw [List.length_take_of_le hlen] at htoken hmatch
      rw [← hcutAt]
      exact ⟨fun h => htoken ((hcut before delta after hfragments cut hcutAt hne).mpr h), hmatch⟩
  · intro hall
    refine ⟨segments_flatten holdback fragments, ?_⟩
    intro before delta after hfragments segment hsegment
    rcases @push_cases options (streamed options holdback before).1 delta with
      ⟨hpush, -⟩ | ⟨cut, hcutAt, hne, hlength, hpush⟩
    · rw [hpush] at hsegment
      cases hsegment
    · have hlen : ((streamed options holdback before).1.buffer ++ delta).length ≥ cut := by
        rw [hcutAt]
        exact cutAt_le _
      rw [hpush] at hsegment
      cases hsegment
      rw [List.length_take_of_le hlen]
      have hgood := (hsafe _).mp (hall before delta after hfragments (not_le.mp hlength))
      rw [← hcutAt] at hgood
      exact ⟨fun h => hgood.1 ((hcut before delta after hfragments cut hcutAt hne).mp h), hgood.2⟩

/-! ## A cut inside a match -/

/-- The pattern of a text without special characters. -/
def RedactionPattern.literal (category : RedactionCategory) (literal : JsString) :
    RedactionPattern where
  category
  exec input lastIndex :=
    ((List.range (input.length + 1)).find? fun index =>
      lastIndex ≤ index ∧ index + literal.length ≤ input.length ∧
        (input.drop index).take literal.length = literal).map (·, literal.length)
  validate := none
  exec_bounds input lastIndex index length h := by
    obtain ⟨found, hfound, heq⟩ := Option.map_eq_some_iff.mp h
    have hsome := List.find?_some hfound
    simp only [Prod.mk.injEq] at heq
    simp only [decide_eq_true_eq] at hsome
    omega

/-- Two patterns, for mail addresses and telephone numbers. -/
def literalOptions (email phone : JsString) : RedactionOptions where
  secrets := some false
  detect := [.email, .phone]
  placeholder := none
  preserveUrlStructure := false
  secretPatterns := []
  piiPatterns
    | .email => some (.literal (.pii .email) email)
    | .phone => some (.literal (.pii .phone) phone)
    | _ => none
  stripUrlSensitiveParts text _ := text

/-- The match that moves the cut starts inside a match that was visited before, or inside a token. -/
theorem not_cutsSafely :
    ¬ CutsSafely (literalOptions (js ['a', ' ', 'b']) (js ['b', ' ', 'c', ' ', 'd'])) 1
      [js ['a', ' ', 'b', ' ', 'c', ' ', 'd']] ∧
    ¬ CutsSafely (literalOptions (js ['@']) (js ['+', '1', ' ', '5'])) 1
      [js ['a', '+', '1', ' ', '5']] := by
  refine ⟨fun h => ?_, fun h => ?_⟩
  · have hcut := (h.2 [] _ [] rfl (js ['a', ' ']) rfl).2 (0, 3) (by decide)
    exact hcut (by decide)
  · have hcut := (h.2 [] _ [] rfl (js ['a']) rfl).1
    exact hcut (by decide)

end Streams

end N8n.Redaction
