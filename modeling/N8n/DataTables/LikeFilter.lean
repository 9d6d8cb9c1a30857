import Mathlib.Data.List.Infix
import Mathlib.Data.Char

/-!
# The `like` filter of data tables

A filter with `like` has one wildcard, the percent sign. SQLite is asked with `GLOB` and PostgreSQL
with `LIKE`, and the text of the filter is rewritten for each of them.

## Main definitions

* `Token`, `matchTokens`: patterns of wildcards and characters
* `globTokens`, `likeTokens`: how `GLOB` and `LIKE` with an escape character read a pattern
* `toSqliteGlobFromPercent`, `escapeLikeSpecials`: the program
* `PercentMatches`: the percent sign stands for any text, and every other character for itself

## Main results

* `like_agrees`: both databases mean this, and PostgreSQL accepts the pattern
-/

namespace N8n.DataTables

/-! ## Patterns -/

section Patterns

variable {α : Type}

/-- Any text, or one character of some kind. -/
inductive Token (α : Type)
  | any
  | char (accepts : α → Bool)

def matchTokens : List (Token α) → List α → Bool
  | [], text => text.isEmpty
  | .any :: tokens, text => text.tails.any (matchTokens tokens)
  | .char _ :: _, [] => false
  | .char accepts :: tokens, c :: text => accepts c && matchTokens tokens text

theorem matchTokens_any {tokens : List (Token α)} {text : List α} :
    matchTokens (.any :: tokens) text ↔ ∃ a b, text = a ++ b ∧ matchTokens tokens b := by
  rw [matchTokens, List.any_eq_true]
  constructor
  · rintro ⟨b, hb, hmatch⟩
    obtain ⟨a, rfl⟩ := (List.mem_tails _ _).mp hb
    exact ⟨a, b, rfl, hmatch⟩
  · rintro ⟨a, b, rfl, hmatch⟩
    exact ⟨b, (List.mem_tails _ _).mpr (List.suffix_append a b), hmatch⟩

theorem matchTokens_char {accepts : α → Bool} {tokens : List (Token α)} {text : List α} :
    matchTokens (.char accepts :: tokens) text ↔
      ∃ c b, text = c :: b ∧ accepts c ∧ matchTokens tokens b := by
  cases text with
  | nil => simp [matchTokens]
  | cons c text => simp [matchTokens]

end Patterns

/-- A character that stands for itself. -/
def literal (c : Char) : Token Char := .char (· = c)

/-! ## GLOB -/

/-- A bracket class that is read: whether it is negated, whether nothing of it has been read yet,
the character that a range may start with, and the ranges so far. -/
structure OpenClass where
  negated : Bool
  first : Bool
  prior : Option Char
  ranges : List (Char × Char)

def OpenClass.add (cls : OpenClass) (low high : Char) (prior : Option Char) : OpenClass :=
  { cls with first := false, prior, ranges := (low, high) :: cls.ranges }

def OpenClass.close (cls : OpenClass) : Token Char :=
  .char fun c => (cls.ranges.any fun range => range.1 ≤ c && c ≤ range.2) != cls.negated

/-- The pattern of `GLOB`, outside of a class or inside one. A class that is not closed matches
nothing. -/
def globTokensFrom : Option OpenClass → List Char → Option (List (Token Char))
  | none, [] => some []
  | none, '*' :: rest => (globTokensFrom none rest).map (.any :: ·)
  | none, '?' :: rest => (globTokensFrom none rest).map (.char (fun _ => true) :: ·)
  | none, '[' :: '^' :: rest => globTokensFrom (some ⟨true, true, none, []⟩) rest
  | none, '[' :: rest => globTokensFrom (some ⟨false, true, none, []⟩) rest
  | none, c :: rest => (globTokensFrom none rest).map (literal c :: ·)
  | some _, [] => none
  | some cls, ']' :: rest =>
    if cls.first then globTokensFrom (some (cls.add ']' ']' none)) rest
    else (globTokensFrom none rest).map (cls.close :: ·)
  | some cls, '-' :: high :: rest =>
    match cls.prior with
    | some low =>
      if high = ']' then (globTokensFrom none rest).map ((cls.add '-' '-' none).close :: ·)
      else globTokensFrom (some (cls.add low high none)) rest
    | none => globTokensFrom (some (cls.add '-' '-' (some '-'))) (high :: rest)
  | some cls, c :: rest => globTokensFrom (some (cls.add c c (some c))) rest

def globTokens : List Char → Option (List (Token Char)) := globTokensFrom none

/-- `text GLOB pattern` -/
def matchesGlob (pattern text : List Char) : Bool :=
  (globTokens pattern).any (matchTokens · text)

/-! ## LIKE -/

/-- The pattern of `LIKE`, where a backslash takes the next character as it is. None is an error:
the pattern ends with the escape character. -/
def likeTokens : List Char → Option (List (Token Char))
  | [] => some []
  | ['\\'] => none
  | '\\' :: c :: rest => (likeTokens rest).map (literal c :: ·)
  | '%' :: rest => (likeTokens rest).map (.any :: ·)
  | '_' :: rest => (likeTokens rest).map (.char (fun _ => true) :: ·)
  | c :: rest => (likeTokens rest).map (literal c :: ·)

/-- `text LIKE pattern ESCAPE '\'` -/
def matchesLike (pattern text : List Char) : Option Bool :=
  (likeTokens pattern).map (matchTokens · text)

/-! ## The filter -/

def toSqliteGlobFromPercent (input : List Char) : List Char :=
  input.flatMap fun ch =>
    if ch = '%' then ['*']
    else if ch = '[' then ['[', '[', ']']
    else if ch = ']' then ['[', ']', ']']
    else if ch = '*' then ['[', '*', ']']
    else if ch = '?' then ['[', '?', ']']
    else [ch]

def escapeLikeSpecials (input : List Char) : List Char :=
  (input.flatMap fun ch => if ch = '\\' then ['\\', '\\'] else [ch]).flatMap fun ch =>
    if ch = '_' then ['\\', '_'] else [ch]

inductive DataSource
  | sqlite | postgres

/-- The condition for `like` of `getConditionAndParams`, on a value of the column. -/
def likeCondition (dbType : DataSource) (value column : List Char) : Option Bool :=
  match dbType with
  | .sqlite => some (matchesGlob (toSqliteGlobFromPercent value) column)
  | .postgres => matchesLike (escapeLikeSpecials value) column

/-- The pattern with the percent sign as its only wildcard. -/
def PercentMatches : List Char → List Char → Prop
  | [], text => text = []
  | c :: rest, text =>
    if c = '%' then ∃ a b, text = a ++ b ∧ PercentMatches rest b
    else ∃ b, text = c :: b ∧ PercentMatches rest b

/-! ## Both mean the same -/

def percentToken (c : Char) : Token Char := if c = '%' then .any else literal c

theorem matchTokens_percent {pattern text : List Char} :
    matchTokens (pattern.map percentToken) text ↔ PercentMatches pattern text := by
  induction pattern generalizing text with
  | nil => simp [matchTokens, PercentMatches]
  | cons c rest ih =>
    rw [List.map_cons, PercentMatches, percentToken]
    split_ifs with hc
    · simp only [matchTokens_any, ih]
    · rw [literal, matchTokens_char]
      simp only [ih, decide_eq_true_eq]
      constructor
      · rintro ⟨d, b, rfl, rfl, h⟩
        exact ⟨b, rfl, h⟩
      · rintro ⟨b, rfl, h⟩
        exact ⟨c, b, rfl, rfl, h⟩

theorem close_single (c : Char) (prior : Option Char) :
    OpenClass.close ⟨false, false, prior, [(c, c)]⟩ = literal c := by
  refine congrArg Token.char (funext fun d => ?_)
  rw [Bool.eq_iff_iff]
  simp [le_antisymm_iff, and_comm]

theorem globTokensFrom_rewrite (c : Char) (rest : List Char) :
    globTokensFrom none (toSqliteGlobFromPercent [c] ++ rest) =
      (globTokensFrom none rest).map (percentToken c :: ·) := by
  rw [toSqliteGlobFromPercent, List.flatMap_singleton]
  split_ifs with hpercent hopen hclose hstar hmark
  · subst hpercent
    rfl
  · subst hopen
    exact congrArg (fun token => (globTokensFrom none rest).map (token :: ·)) (close_single '[' _)
  · subst hclose
    exact congrArg (fun token => (globTokensFrom none rest).map (token :: ·)) (close_single ']' _)
  · subst hstar
    exact congrArg (fun token => (globTokensFrom none rest).map (token :: ·)) (close_single '*' _)
  · subst hmark
    exact congrArg (fun token => (globTokensFrom none rest).map (token :: ·)) (close_single '?' _)
  · -- any other character stands for itself
    have hchar : globTokensFrom none (c :: rest) =
        (globTokensFrom none rest).map (literal c :: ·) := by
      rw [globTokensFrom]
      all_goals simp_all
    rw [List.singleton_append, hchar, percentToken, if_neg hpercent]

theorem globTokens_toSqliteGlobFromPercent (pattern : List Char) :
    globTokens (toSqliteGlobFromPercent pattern) = some (pattern.map percentToken) := by
  induction pattern with
  | nil => rfl
  | cons c rest ih =>
    have hstep := globTokensFrom_rewrite c (toSqliteGlobFromPercent rest)
    have hcons : toSqliteGlobFromPercent (c :: rest) =
        toSqliteGlobFromPercent [c] ++ toSqliteGlobFromPercent rest := by
      simp [toSqliteGlobFromPercent]
    rw [globTokens] at ih ⊢
    rw [hcons, hstep, ih, Option.map_some, List.map_cons]

theorem likeTokens_escapeLikeSpecials (pattern : List Char) :
    likeTokens (escapeLikeSpecials pattern) = some (pattern.map percentToken) := by
  induction pattern with
  | nil => rfl
  | cons c rest ih =>
    have hcons : escapeLikeSpecials (c :: rest) =
        escapeLikeSpecials [c] ++ escapeLikeSpecials rest := by
      simp [escapeLikeSpecials]
    have hstep : likeTokens (escapeLikeSpecials [c] ++ escapeLikeSpecials rest) =
        (likeTokens (escapeLikeSpecials rest)).map (percentToken c :: ·) := by
      by_cases hescape : c = '\\'
      · subst hescape
        rfl
      by_cases hunderscore : c = '_'
      · subst hunderscore
        rfl
      have hsame : escapeLikeSpecials [c] = [c] := by
        simp [escapeLikeSpecials, hescape, hunderscore]
      rw [hsame, List.singleton_append, percentToken]
      split_ifs with hpercent
      · subst hpercent
        rfl
      · rw [likeTokens]
        all_goals simp_all
    rw [hcons, hstep, ih, Option.map_some, List.map_cons]

/-- **Both databases mean the same**: the column matches on each of them exactly when it matches
with the percent sign as the only wildcard, and PostgreSQL accepts the pattern. -/
theorem like_agrees (dbType : DataSource) (value column : List Char) :
    ∃ answer, likeCondition dbType value column = some answer ∧
      (answer = true ↔ PercentMatches value column) := by
  cases dbType with
  | sqlite =>
    refine ⟨_, rfl, ?_⟩
    rw [matchesGlob, globTokens_toSqliteGlobFromPercent]
    exact matchTokens_percent
  | postgres =>
    refine ⟨_, ?_, matchTokens_percent⟩
    rw [likeCondition, matchesLike, likeTokens_escapeLikeSpecials, Option.map_some]

end N8n.DataTables
