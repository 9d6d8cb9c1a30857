import N8n.Common.JsString
import Mathlib.Data.List.Infix

/-!
# Splitting expressions

An expression is text with pieces of code between `{{` and `}}`. `splitExpression` cuts it into
chunks, `joinExpression` writes chunks back. A bracket with a backslash before it does not count;
in code the first such bracket loses its backslash when it is split and gets one when it is joined.

## Main definitions

* `splitExpression`, `joinExpression`: the two directions
* `Keeps`: the strings of which the two directions lose nothing

## Main results

* `joinExpression_splitExpression_iff`: a string comes back exactly if it is one of these
-/

namespace N8n.Expressions

/-! ## Chunks -/

inductive ExpressionChunk
  | text (text : JsString)
  | code (text : JsString) (hasClosingBrackets : Bool)
  deriving DecidableEq

inductive SearchingFor
  | «open»
  | close
  deriving DecidableEq

namespace SearchingFor

/-- The unit that a bracket is made of. -/
def unit : SearchingFor → CodeUnit
  | .open => ascii '{'
  | .close => ascii '}'

def other : SearchingFor → SearchingFor
  | .open => .close
  | .close => .open

end SearchingFor

def backslash : CodeUnit := ascii '\\'

def brackets (b : CodeUnit) : JsString := [b, b]

def escapedBrackets (b : CodeUnit) : JsString := [backslash, b, b]

/-! ## Splitting and joining -/

/-- A match of `OPEN_BRACKET` or `CLOSE_BRACKET`. -/
structure BracketMatch where
  index : ℕ
  escaped : Bool
  deriving DecidableEq

/-- The leftmost match: at each index the brackets with their backslash come first. -/
def execBracket (b : CodeUnit) : JsString → Option BracketMatch
  | [] => none
  | c :: expr =>
    if escapedBrackets b <+: c :: expr then some ⟨0, true⟩
    else if brackets b <+: c :: expr then some ⟨0, false⟩
    else (execBracket b expr).map fun res => { res with index := res.index + 1 }

def escapeCode (text : JsString) : JsString :=
  replaceFirst (escapedBrackets (ascii '}')) (brackets (ascii '}')) text

def SearchingFor.chunk (searchingFor : SearchingFor) (buffer : JsString)
    (hasClosingBrackets : Bool) : ExpressionChunk :=
  match searchingFor with
  | .open => .text buffer
  | .close => .code (escapeCode buffer) hasClosingBrackets

/-- The loop of `splitExpression` on what is left of the expression. Every pass takes a bracket off,
so that `fuel` is never used up when it starts at the length. -/
def splitLoop : ℕ → SearchingFor → JsString → JsString → List ExpressionChunk
  | 0, _, _, _ => []
  | fuel + 1, searchingFor, buffer, expr =>
    if expr = [] then []
    else
      match execBracket searchingFor.unit expr with
      | none => [searchingFor.chunk (buffer ++ expr) false]
      | some res =>
        if res.escaped then
          splitLoop fuel searchingFor (buffer ++ expr.take (res.index + 3))
            (expr.drop (res.index + 3))
        else
          searchingFor.chunk (buffer ++ expr.take res.index) true ::
            splitLoop fuel searchingFor.other [] (expr.drop (res.index + 2))

def splitExpression (expression : JsString) : List ExpressionChunk :=
  if expression = [] then [.text []] else splitLoop expression.length .open [] expression

def escapeTmplExpression (part : JsString) : JsString :=
  replaceFirst (brackets (ascii '}')) (escapedBrackets (ascii '}')) part

def ExpressionChunk.join : ExpressionChunk → JsString
  | .text part => part
  | .code part hasClosingBrackets =>
    brackets (ascii '{') ++ escapeTmplExpression part ++
      if hasClosingBrackets then brackets (ascii '}') else []

def joinExpression (parts : List ExpressionChunk) : JsString := parts.flatMap ExpressionChunk.join

/-! ## The strings that come back -/

/-- Where a scan of an expression stands. Code is told apart by whether it has had an escaped
closing bracket, and before the first one by whether the unit just passed is a `}`. -/
inductive Position
  | text
  | code (afterBrace : Bool)
  | escapedCode
  deriving DecidableEq

namespace Position

/-- The bracket that ends a piece. -/
def searchingFor : Position → SearchingFor
  | text => .open
  | code _ | escapedCode => .close

def pass (c : CodeUnit) : Position → Position
  | text => text
  | code _ => code (c = ascii '}')
  | escapedCode => escapedCode

def afterEscaped : Position → Position
  | text => text
  | code _ | escapedCode => escapedCode

def afterBrackets : Position → Position
  | text => code false
  | code _ | escapedCode => text

end Position

/-- Nothing is lost from a position on. The string does not end with an escaped bracket, nor with
the bracket that opens code, and no `}` stands before the first escaped bracket of a piece of
code. -/
def Keeps (position : Position) (s : JsString) : Prop :=
  match s with
  | [] => True
  | c :: s =>
    if escapedBrackets position.searchingFor.unit <+: c :: s then
      position ≠ .code true ∧ s.drop 2 ≠ [] ∧ Keeps position.afterEscaped (s.drop 2)
    else if brackets position.searchingFor.unit <+: c :: s then
      (position = .text → s.drop 1 ≠ []) ∧ Keeps position.afterBrackets (s.drop 1)
    else Keeps (position.pass c) s
termination_by s.length
decreasing_by all_goals simp only [List.length_cons, List.length_drop]; omega

@[simp] theorem Keeps.nil (position : Position) : Keeps position [] := by
  rw [Keeps]
  trivial

/-! ## What a match passes over -/

section Matches

variable {b : CodeUnit} {pre rest s : JsString}

/-- No match starts in `pre` when `rest` comes after it. -/
inductive Passes (b : CodeUnit) (rest : JsString) : JsString → Prop
  | nil : Passes b rest []
  | cons {c : CodeUnit} {pre : JsString} : ¬ escapedBrackets b <+: c :: (pre ++ rest) →
      ¬ brackets b <+: c :: (pre ++ rest) → Passes b rest pre → Passes b rest (c :: pre)

theorem execBracket_none (h : execBracket b s = none) : Passes b [] s := by
  induction s with
  | nil => exact .nil
  | cons c s ih =>
    rw [execBracket] at h
    split_ifs at h with he hb
    refine .cons ?_ ?_ (ih (Option.map_eq_none_iff.mp h))
    · rwa [List.append_nil]
    · rwa [List.append_nil]

def BracketMatch.bracket (b : CodeUnit) (escaped : Bool) : JsString :=
  if escaped then escapedBrackets b else brackets b

theorem execBracket_some {res : BracketMatch} (h : execBracket b s = some res) :
    ∃ pre rest, s = pre ++ (BracketMatch.bracket b res.escaped ++ rest) ∧
      res.index = pre.length ∧ Passes b (BracketMatch.bracket b res.escaped ++ rest) pre := by
  induction s generalizing res with
  | nil => cases h
  | cons c s ih =>
    rw [execBracket] at h
    split_ifs at h with he hb
    · cases h
      obtain ⟨rest, hrest⟩ := he
      exact ⟨[], rest, hrest.symm, rfl, .nil⟩
    · cases h
      obtain ⟨rest, hrest⟩ := hb
      exact ⟨[], rest, hrest.symm, rfl, .nil⟩
    · obtain ⟨res', hres, rfl⟩ := Option.map_eq_some_iff.mp h
      obtain ⟨pre, rest, rfl, hi, hp⟩ := ih hres
      exact ⟨c :: pre, rest, rfl, congrArg (· + 1) hi, .cons he hb hp⟩

theorem Keeps.passes (position : Position) (h : Passes position.searchingFor.unit rest pre) :
    Keeps position (pre ++ rest) ↔ Keeps (pre.foldl (fun p c => p.pass c) position) rest := by
  induction pre generalizing position with
  | nil => rfl
  | cons c pre ih =>
    cases h with
    | cons he hb h =>
      rw [List.cons_append, Keeps, if_neg he, if_neg hb, List.foldl_cons, ih]
      cases position <;> exact h

theorem Keeps.escaped (position : Position) :
    Keeps position (escapedBrackets position.searchingFor.unit ++ rest) ↔
      position ≠ .code true ∧ rest ≠ [] ∧ Keeps position.afterEscaped rest := by
  rw [escapedBrackets, List.cons_append, Keeps, if_pos ⟨rest, rfl⟩]
  rfl

theorem Keeps.brackets (position : Position) (h : position.searchingFor.unit ≠ backslash) :
    Keeps position (brackets position.searchingFor.unit ++ rest) ↔
      (position = .text → rest ≠ []) ∧ Keeps position.afterBrackets rest := by
  rw [Expressions.brackets, List.cons_append, Keeps, if_neg, if_pos ⟨rest, rfl⟩]
  · rfl
  · rintro ⟨t, ht⟩
    exact h (List.cons.inj ht).1.symm

/-- Text that is passed over has no brackets in it. -/
theorem Passes.not_infix (h : Passes b rest pre) : ¬ brackets b <:+: pre := by
  induction h with
  | nil => simp [brackets]
  | cons _ hb _ ih =>
    rw [List.infix_cons_iff]
    rintro (hpre | hin)
    · exact hb (hpre.trans (List.prefix_append _ _))
    · exact ih hin

end Matches

/-! ## Escaping -/

section Escaping

variable {b : CodeUnit} {p q t pattern replacement : JsString}

theorem replaceFirst_of_not_infix (h : ¬ pattern <:+: t) :
    replaceFirst pattern replacement t = t := by
  induction t with
  | nil =>
    rw [replaceFirst, if_neg]
    rintro rfl
    exact h List.infix_rfl
  | cons c t ih =>
    rw [replaceFirst, if_neg fun hp => h hp.isInfix, ih fun hi => h (List.infix_cons hi)]

theorem replaceFirst_append (hb : pattern ≠ [])
    (h : ∀ c t u, p = u ++ c :: t → ¬ pattern <+: c :: (t ++ (pattern ++ q))) :
    replaceFirst pattern replacement (p ++ (pattern ++ q)) = p ++ (replacement ++ q) := by
  induction p with
  | nil =>
    obtain ⟨c, pattern, rfl⟩ := List.exists_cons_of_ne_nil hb
    rw [List.nil_append, List.cons_append, replaceFirst, if_pos ⟨q, rfl⟩, ← List.cons_append,
      List.drop_left, List.nil_append]
  | cons c p ih =>
    rw [List.cons_append, replaceFirst, if_neg (h c p [] rfl),
      ih fun c' t u hu => h c' t (c :: u) (congrArg _ hu), List.cons_append]

/-- The brackets in `p` followed by a backslash, and in `p` alone, are the same. -/
theorem escapedBrackets_not_start (hb : b ≠ backslash) (hp : ¬ brackets b <:+: p) :
    ∀ c t u, p = u ++ c :: t →
      ¬ escapedBrackets b <+: c :: (t ++ (escapedBrackets b ++ q)) := by
  rintro c t u hu ⟨r, hr⟩
  match t, hr with
  | [], hr => exact hb (List.cons.inj (List.cons.inj hr).2).1
  | [_], hr => exact hb (List.cons.inj (List.cons.inj (List.cons.inj hr).2).2).1
  | x :: y :: t, hr =>
    obtain ⟨-, rfl, rfl, -⟩ : backslash = c ∧ b = x ∧ b = y ∧ _ := by
      simpa [escapedBrackets] using hr
    exact hp ⟨u ++ [c], t, by simp [brackets, hu]⟩

theorem brackets_not_start (hp : ¬ brackets b <:+: p) (hl : p.getLast? ≠ some b) :
    ∀ c t u, p = u ++ c :: t → ¬ brackets b <+: c :: (t ++ (brackets b ++ q)) := by
  rintro c t u hu ⟨r, hr⟩
  match t, hr with
  | [], hr =>
    obtain ⟨rfl, -⟩ := List.cons.inj hr
    exact hl (by simp [hu])
  | x :: t, hr =>
    obtain ⟨rfl, rfl, -⟩ : b = c ∧ b = x ∧ _ := by simpa [brackets] using hr
    exact hp ⟨u, t, by simp [brackets, hu]⟩

/-- What is left of the code in a buffer after it was unescaped and escaped again. -/
def restored (text : JsString) : JsString := escapeTmplExpression (escapeCode text)

theorem restored_of_not_infix (h : ¬ brackets (ascii '}') <:+: t) : restored t = t := by
  have he : ¬ escapedBrackets (ascii '}') <:+: t :=
    fun hin => h (List.IsInfix.trans ⟨[backslash], [], rfl⟩ hin)
  rw [restored, escapeCode, replaceFirst_of_not_infix he, escapeTmplExpression,
    replaceFirst_of_not_infix h]

theorem escapeCode_append (hp : ¬ brackets (ascii '}') <:+: p) :
    escapeCode (p ++ (escapedBrackets (ascii '}') ++ q)) = p ++ (brackets (ascii '}') ++ q) :=
  replaceFirst_append (by simp [escapedBrackets]) (escapedBrackets_not_start (by decide) hp)

theorem restored_append (hp : ¬ brackets (ascii '}') <:+: p)
    (hl : p.getLast? ≠ some (ascii '}')) :
    restored (p ++ (escapedBrackets (ascii '}') ++ q)) =
      p ++ (escapedBrackets (ascii '}') ++ q) := by
  rw [restored, escapeCode_append hp]
  exact replaceFirst_append (by simp [brackets]) (brackets_not_start hp hl)

/-- After a `}` the backslash comes back one unit too early. -/
theorem restored_append_brace (hp : ¬ brackets (ascii '}') <:+: p ++ [ascii '}']) :
    restored (p ++ [ascii '}'] ++ (escapedBrackets (ascii '}') ++ q)) =
      p ++ (escapedBrackets (ascii '}') ++ (ascii '}' :: q)) := by
  have hp' : ¬ brackets (ascii '}') <:+: p := fun h => hp (h.trans (List.prefix_append _ _).isInfix)
  have hl : p.getLast? ≠ some (ascii '}') := by
    intro hl
    obtain ⟨u, rfl⟩ := List.getLast?_eq_some_iff.mp hl
    exact hp ⟨u, [], by simp [brackets]⟩
  rw [restored, escapeCode_append hp]
  have hq : p ++ [ascii '}'] ++ (brackets (ascii '}') ++ q) =
      p ++ (brackets (ascii '}') ++ (ascii '}' :: q)) := by simp [brackets]
  rw [hq]
  exact replaceFirst_append (by simp [brackets]) (brackets_not_start hp' hl)

/-- **A buffer comes back** exactly if no `}` stands before its first escaped bracket. -/
theorem restored_eq_iff (hp : ¬ brackets (ascii '}') <:+: p) :
    restored (p ++ (escapedBrackets (ascii '}') ++ q)) =
        p ++ (escapedBrackets (ascii '}') ++ q) ↔ p.getLast? ≠ some (ascii '}') := by
  refine ⟨fun h hl => ?_, restored_append hp⟩
  obtain ⟨u, rfl⟩ := List.getLast?_eq_some_iff.mp hl
  rw [restored_append_brace hp, List.append_assoc] at h
  exact absurd (List.cons.inj (List.append_cancel_left h)).1 (by decide)

theorem length_restored (hp : ¬ brackets (ascii '}') <:+: p) :
    (restored (p ++ (escapedBrackets (ascii '}') ++ q))).length =
      (p ++ (escapedBrackets (ascii '}') ++ q)).length := by
  by_cases hl : p.getLast? = some (ascii '}')
  · obtain ⟨u, rfl⟩ := List.getLast?_eq_some_iff.mp hl
    rw [restored_append_brace hp]
    simp [escapedBrackets]
  · rw [restored_append hp hl]

end Escaping

/-! ## The loop -/

section Loop

variable {buffer expr p q : JsString} {fuel : ℕ}

theorem foldl_pass_text (pre : JsString) :
    pre.foldl (fun p c => p.pass c) Position.text = .text := by
  induction pre with
  | nil => rfl
  | cons c pre ih => exact ih

theorem foldl_pass_escapedCode (pre : JsString) :
    pre.foldl (fun p c => p.pass c) Position.escapedCode = .escapedCode := by
  induction pre with
  | nil => rfl
  | cons c pre ih => exact ih

theorem foldl_pass_code (pre : JsString) :
    pre.foldl (fun p c => p.pass c) (Position.code false) =
      .code (pre.getLast? = some (ascii '}')) := by
  induction pre using List.reverseRecOn with
  | nil => rfl
  | append_singleton pre c ih =>
    rw [List.foldl_append, ih]
    simp [Position.pass]

/-- What one pass of the loop does to what is left of an expression. -/
theorem splitLoop_cases (fuel : ℕ) (searchingFor : SearchingFor) (buffer : JsString)
    (hne : expr ≠ []) :
    (Passes searchingFor.unit [] expr ∧
      splitLoop (fuel + 1) searchingFor buffer expr =
        [searchingFor.chunk (buffer ++ expr) false]) ∨
    (∃ pre rest, expr = pre ++ (escapedBrackets searchingFor.unit ++ rest) ∧
      Passes searchingFor.unit (escapedBrackets searchingFor.unit ++ rest) pre ∧
      splitLoop (fuel + 1) searchingFor buffer expr =
        splitLoop fuel searchingFor (buffer ++ (pre ++ escapedBrackets searchingFor.unit)) rest) ∨
    ∃ pre rest, expr = pre ++ (brackets searchingFor.unit ++ rest) ∧
      Passes searchingFor.unit (brackets searchingFor.unit ++ rest) pre ∧
      splitLoop (fuel + 1) searchingFor buffer expr =
        searchingFor.chunk (buffer ++ pre) true :: splitLoop fuel searchingFor.other [] rest := by
  rw [splitLoop, if_neg hne]
  cases hm : execBracket searchingFor.unit expr with
  | none => exact .inl ⟨execBracket_none hm, rfl⟩
  | some res =>
    obtain ⟨pre, rest, rfl, hi, hp⟩ := execBracket_some hm
    obtain ⟨index, escaped⟩ := res
    obtain rfl : index = pre.length := hi
    cases escaped with
    | true =>
      refine .inr (.inl ⟨pre, rest, rfl, hp, ?_⟩)
      simp [BracketMatch.bracket, escapedBrackets, List.take_append, List.drop_append,
        List.take_of_length_le (Nat.le_add_right pre.length 3),
        List.drop_of_length_le (Nat.le_add_right pre.length 3)]
    | false =>
      refine .inr (.inr ⟨pre, rest, rfl, hp, ?_⟩)
      simp [BracketMatch.bracket, brackets, List.drop_append,
        List.drop_of_length_le (Nat.le_add_right pre.length 2)]

theorem joinExpression_cons (chunk : ExpressionChunk) (chunks : List ExpressionChunk) :
    joinExpression (chunk :: chunks) = chunk.join ++ joinExpression chunks := rfl

@[simp] theorem join_chunk_open (buffer : JsString) (closing : Bool) :
    (SearchingFor.open.chunk buffer closing).join = buffer := rfl

theorem join_chunk_close (buffer : JsString) (closing : Bool) :
    (SearchingFor.close.chunk buffer closing).join =
      brackets (ascii '{') ++ (restored buffer ++ if closing then brackets (ascii '}') else []) := by
  simp [SearchingFor.chunk, ExpressionChunk.join, restored]

/-- What the loop makes of the rest of an expression, by the position in it. The buffer holds the
piece so far, in code from its first escaped bracket on. -/
structure LoopSpec (fuel : ℕ) : Prop where
  text : ∀ buffer {expr}, expr.length ≤ fuel →
    (joinExpression (splitLoop fuel .open buffer expr) = buffer ++ expr ↔
      (expr = [] → buffer = []) ∧ Keeps .text expr)
  code : ∀ {expr}, expr.length ≤ fuel →
    (joinExpression (splitLoop fuel .close [] expr) = brackets (ascii '{') ++ expr ↔
      expr ≠ [] ∧ Keeps (.code false) expr)
  escapedCode : ∀ {p q expr}, ¬ brackets (ascii '}') <:+: p → expr.length ≤ fuel →
    (joinExpression (splitLoop fuel .close (p ++ (escapedBrackets (ascii '}') ++ q)) expr) =
        brackets (ascii '{') ++ (p ++ (escapedBrackets (ascii '}') ++ q) ++ expr) ↔
      p.getLast? ≠ some (ascii '}') ∧ expr ≠ [] ∧ Keeps .escapedCode expr)

namespace LoopSpec

variable {pre rest : JsString}

theorem length_rest_le {bracket : JsString} (hb : bracket ≠ [])
    (hl : (pre ++ (bracket ++ rest)).length ≤ fuel + 1) : rest.length ≤ fuel := by
  have := List.length_pos_iff.mpr hb
  simp only [List.length_append] at hl
  omega

theorem text_succ (h : LoopSpec fuel) (hl : expr.length ≤ fuel + 1) :
    joinExpression (splitLoop (fuel + 1) .open buffer expr) = buffer ++ expr ↔
      (expr = [] → buffer = []) ∧ Keeps .text expr := by
  by_cases hne : expr = []
  · subst hne
    simp [splitLoop, joinExpression, eq_comm]
  · simp only [hne, false_imp_iff, true_and]
    rcases splitLoop_cases fuel .open buffer hne with ⟨hp, hs⟩ | ⟨pre, rest, rfl, hp, hs⟩ |
      ⟨pre, rest, rfl, hp, hs⟩
    · have hk : Keeps .text (expr ++ []) := (Keeps.passes .text hp).mpr (.nil _)
      rw [hs]
      simpa [joinExpression] using hk
    · -- the buffer grows, and it is lost if nothing comes after it
      have hk := Keeps.passes .text hp
      rw [foldl_pass_text] at hk
      replace hk := hk.trans (Keeps.escaped .text)
      have ht := h.text (buffer ++ (pre ++ escapedBrackets SearchingFor.open.unit))
        (length_rest_le (by simp [escapedBrackets]) hl)
      rw [hs, hk]
      simpa [escapedBrackets, Position.afterEscaped] using ht
    · -- the text ends here, and what comes after it is read as code
      have hk := Keeps.passes .text hp
      rw [foldl_pass_text] at hk
      replace hk := hk.trans (Keeps.brackets .text (by decide))
      have hc := h.code (length_rest_le (by simp [brackets]) hl)
      rw [hs, hk, joinExpression_cons, join_chunk_open, List.append_assoc, List.append_cancel_left_eq,
        List.append_cancel_left_eq]
      simpa [SearchingFor.unit, SearchingFor.other, Position.afterBrackets] using hc

/-- Code that starts with its buffer empty. -/
theorem code_succ (h : LoopSpec fuel) (hl : expr.length ≤ fuel + 1) :
    joinExpression (splitLoop (fuel + 1) .close [] expr) = brackets (ascii '{') ++ expr ↔
      expr ≠ [] ∧ Keeps (.code false) expr := by
  by_cases hne : expr = []
  · subst hne
    simp [splitLoop, joinExpression, brackets]
  · simp only [hne, ne_eq, not_false_iff, true_and]
    rcases splitLoop_cases fuel .close [] hne with ⟨hp, hs⟩ | ⟨pre, rest, rfl, hp, hs⟩ |
      ⟨pre, rest, rfl, hp, hs⟩
    · have hk := Keeps.passes (.code false) hp
      rw [List.append_nil] at hk
      rw [hs, joinExpression_cons, join_chunk_close, List.nil_append,
        restored_of_not_infix hp.not_infix, hk]
      simp [joinExpression]
    · -- the first escaped bracket of this code
      have hk := Keeps.passes (.code false) hp
      rw [foldl_pass_code] at hk
      replace hk := hk.trans (Keeps.escaped (.code _))
      have he := h.escapedCode (q := []) hp.not_infix
        (length_rest_le (by simp [escapedBrackets]) hl)
      rw [hs, hk]
      simpa [SearchingFor.unit, Position.afterEscaped] using he
    · have hk := Keeps.passes (.code false) hp
      rw [foldl_pass_code] at hk
      replace hk := hk.trans (Keeps.brackets (.code _) (show ascii '}' ≠ backslash by decide))
      have ht := h.text [] (length_rest_le (by simp [brackets]) hl)
      rw [hs, hk, joinExpression_cons, join_chunk_close, List.nil_append,
        restored_of_not_infix hp.not_infix]
      simpa [SearchingFor.unit, SearchingFor.other, Position.afterBrackets] using ht

theorem escapedCode_succ (h : LoopSpec fuel) (hi : ¬ brackets (ascii '}') <:+: p)
    (hl : expr.length ≤ fuel + 1) :
    joinExpression (splitLoop (fuel + 1) .close (p ++ (escapedBrackets (ascii '}') ++ q)) expr) =
        brackets (ascii '{') ++ (p ++ (escapedBrackets (ascii '}') ++ q) ++ expr) ↔
      p.getLast? ≠ some (ascii '}') ∧ expr ≠ [] ∧ Keeps .escapedCode expr := by
  by_cases hne : expr = []
  · subst hne
    simp [splitLoop, joinExpression, brackets]
  · simp only [hne, ne_eq, not_false_iff, true_and]
    rcases splitLoop_cases fuel .close (p ++ (escapedBrackets (ascii '}') ++ q)) hne with
      ⟨hp, hs⟩ | ⟨pre, rest, rfl, hp, hs⟩ | ⟨pre, rest, rfl, hp, hs⟩
    · have hk := Keeps.passes .escapedCode hp
      rw [foldl_pass_escapedCode, List.append_nil] at hk
      have hr := restored_eq_iff (q := q ++ expr) hi
      rw [hs, joinExpression_cons, join_chunk_close, hk]
      simpa [joinExpression] using hr
    · have hk := Keeps.passes .escapedCode hp
      rw [foldl_pass_escapedCode] at hk
      replace hk := hk.trans (Keeps.escaped .escapedCode)
      have he := h.escapedCode (q := q ++ (pre ++ escapedBrackets (ascii '}'))) hi
        (length_rest_le (by simp [escapedBrackets]) hl)
      rw [hs, hk]
      simpa [SearchingFor.unit, Position.afterEscaped] using he
    · -- the buffer and what comes after it come back separately
      have hk := Keeps.passes .escapedCode hp
      rw [foldl_pass_escapedCode] at hk
      replace hk := hk.trans (Keeps.brackets .escapedCode (by decide))
      have ht := h.text [] (length_rest_le (by simp [brackets]) hl)
      have hbuffer : p ++ (escapedBrackets (ascii '}') ++ q) ++ pre =
          p ++ (escapedBrackets (ascii '}') ++ (q ++ pre)) := by simp
      have hsplit : ∀ x y : JsString,
          restored (p ++ (escapedBrackets (ascii '}') ++ (q ++ pre))) ++ x =
              p ++ (escapedBrackets (ascii '}') ++ (q ++ pre)) ++ y ↔
            p.getLast? ≠ some (ascii '}') ∧ x = y := by
        intro x y
        rw [← restored_eq_iff (q := q ++ pre) hi]
        refine ⟨fun h => List.append_inj h (length_restored hi), ?_⟩
        rintro ⟨hr, rfl⟩
        rw [hr]
      have h := hsplit (brackets (ascii '}') ++ joinExpression (splitLoop fuel .open [] rest))
        (brackets (ascii '}') ++ rest)
      rw [List.append_cancel_left_eq, show _ = rest ↔ _ from ht] at h
      rw [hs, hk, joinExpression_cons, join_chunk_close, hbuffer]
      simpa [SearchingFor.unit, SearchingFor.other, Position.afterBrackets] using h

end LoopSpec

theorem loopSpec (fuel : ℕ) : LoopSpec fuel := by
  induction fuel with
  | zero =>
    have nil {expr : JsString} (hl : expr.length ≤ 0) : expr = [] :=
      List.length_eq_zero_iff.mp (Nat.le_zero.mp hl)
    refine ⟨fun buffer expr hl => ?_, fun hl => ?_, fun hi hl => ?_⟩
    · simp [nil hl, splitLoop, joinExpression, eq_comm]
    · simp [nil hl, splitLoop, joinExpression, brackets]
    · simp [nil hl, splitLoop, joinExpression, brackets]
  | succ fuel ih => exact ⟨fun _ _ hl => ih.text_succ hl, ih.code_succ, ih.escapedCode_succ⟩

end Loop

/-- **An expression comes back** from splitting and joining exactly if nothing of it is lost: it does
not end with an escaped bracket or with the bracket that opens code, and no `}` stands before the
first escaped closing bracket of a piece of code. -/
theorem joinExpression_splitExpression_iff (s : JsString) :
    joinExpression (splitExpression s) = s ↔ Keeps .text s := by
  by_cases hs : s = []
  · subst hs
    simp [splitExpression, joinExpression, ExpressionChunk.join]
  · rw [splitExpression, if_neg hs]
    simpa [hs] using (loopSpec s.length).text [] le_rfl

/-- `a {{` comes back as `a `. -/
theorem joinExpression_splitExpression_opened :
    joinExpression (splitExpression (js ['a', ' ', '{', '{'])) ≠ js ['a', ' ', '{', '{'] := by
  decide

end N8n.Expressions
