import N8n.Expressions.StringValues
import Mathlib

/-!
# The calls of `$fromAI` in a text

The parameters of a node are searched for calls of `$fromAI`. A pattern finds where a call begins, a
scan from there finds the closing parenthesis, and the text between them is split into arguments.
The search goes on behind the opening parenthesis, not behind the closing one, so it also looks into
the quoted arguments of the call.

## Main definitions

* `extractFromAICalls`: the records of the calls in a text
* `calls`: the calls of a text; what stands in quotes within one is none
* `HasArguments`, `HasValues`: arguments that are literals, and a record with their values
* `Extracts`: what the search is for
* `KeepsValues`: arguments whose values are kept, though their escapes are undone twice

## Main results

* `hasValues_read`: the record of a call whose arguments are literals
* `hasValues_iff`: when it has their values
-/

namespace N8n.FromAI

/-! ## The search -/

inductive FromAIArgumentType
  | string
  | number
  | boolean
  | json
  deriving DecidableEq

/-- A default value, with the numbers of `Number(value)` and the values of `JSON.parse(value)`. -/
inductive DefaultValue (ν ι : Type)
  | text (value : JsString)
  | number (value : ν)
  | boolean (value : Bool)
  | json (value : ι)

structure FromAIArgument (ν ι : Type) where
  key : JsString
  description : Option JsString
  type : FromAIArgumentType
  defaultValue : Option (DefaultValue ν ι)

section Parse

variable {ν ι : Type} (toNumber : JsString → Option ν) (jsonParse : JsString → Option ι)

def isFromAIArgumentType (value : JsString) : Option FromAIArgumentType :=
  if value = js "string".toList then some .string
  else if value = js "number".toList then some .number
  else if value = js "boolean".toList then some .boolean
  else if value = js "json".toList then some .json
  else none

/-- `toNumber` has no value where `Number(value)` is not a number, and `jsonParse` none where it
throws. -/
def parseDefaultValue (value : Option JsString) (type : FromAIArgumentType) :
    Option (DefaultValue ν ι) :=
  value.map fun value =>
    let lowerValue := value.map lower
    let json := match jsonParse value with
      | some parsed => .json parsed
      | none => .text value
    match type with
    | .string => .text value
    | .boolean =>
      if lowerValue = js "true".toList then .boolean true
      else if lowerValue = js "false".toList then .boolean false
      else json
    | .number =>
      match toNumber value with
      | some number => .number number
      | none => json
    | .json => json

/-- The arguments between the commas that are not in quotes. A backslash is left out, and what
follows it is taken as it is. -/
def splitArguments (currentArg : JsString) (quoteChar : Option CodeUnit) (escapeNext : Bool)
    (argsString : JsString) : List JsString :=
  match escapeNext, argsString with
  | _, [] => if currentArg = [] then [] else [trim currentArg]
  | true, char :: rest => splitArguments (currentArg ++ [char]) quoteChar false rest
  | false, char :: rest =>
    if char = backslash then splitArguments currentArg quoteChar true rest
    else if char ∈ quoteChars then
      match quoteChar with
      | none => splitArguments (currentArg ++ [char]) (some char) false rest
      | some quote =>
        splitArguments (currentArg ++ [char]) (if char = quote then none else some quote) false rest
    else if char = ascii ',' ∧ quoteChar = none then
      trim currentArg :: splitArguments [] quoteChar false rest
    else splitArguments (currentArg ++ [char]) quoteChar false rest

/-- `replace(/\\c/g, c)`: a backslash before this unit is left out. -/
def replaceEscaped (c : CodeUnit) : JsString → JsString
  | char :: next :: rest =>
    if char = backslash ∧ next = c then c :: replaceEscaped c rest
    else char :: replaceEscaped c (next :: rest)
  | text => text

attribute [grind =] splitArguments replaceEscaped

/-- The escapes that are replaced in quotes, one kind after the other. -/
def replaceEscapes (text : JsString) : JsString :=
  replaceEscaped backslash (replaceEscaped (ascii '"') (replaceEscaped (ascii '`')
    (replaceEscaped (ascii '\'') text)))

/-- An argument without the quotes around it. -/
def cleanArgument (arg : JsString) : JsString :=
  let trimmed := trim arg
  if [ascii '\'', ascii '`', ascii '"'].any fun quote =>
      trimmed.head? = some quote ∧ trimmed.getLast? = some quote then
    replaceEscapes (trimmed.drop 1).dropLast
  else trimmed

def toArgument (cleanArgs : List JsString) : Except JsString (FromAIArgument ν ι) :=
  let rawType := cleanArgs[2]?.getD (js "string".toList)
  match isFromAIArgumentType (rawType.map lower) with
  | none => .error (js "Invalid type: ".toList ++ rawType)
  | some type => .ok ⟨cleanArgs[0]?.getD [], cleanArgs[1]?, type,
      parseDefaultValue toNumber jsonParse cleanArgs[3]? type⟩

def parseArguments (argsString : JsString) : Except JsString (FromAIArgument ν ι) :=
  toArgument toNumber jsonParse ((splitArguments [] none false argsString).map cleanArgument)

/-- The text up to the parenthesis that closes the call, which is open `parenthesesCount` times. -/
def readArguments : Option CodeUnit → ℕ → JsString → Option JsString
  | _, 0, _ => some []
  | _, _ + 1, [] => none
  | some _, _ + 1, [_] => none
  | some quote, count + 1, char :: next :: rest =>
    if char = backslash then
      (readArguments (some quote) (count + 1) rest).map fun args => char :: next :: args
    else
      (readArguments (if char = quote then none else some quote) (count + 1) (next :: rest)).map
        (char :: ·)
  | none, count + 1, char :: rest =>
    if char ∈ quoteChars then (readArguments (some char) (count + 1) rest).map (char :: ·)
    else if char = ascii '(' then (readArguments none (count + 2) rest).map (char :: ·)
    else if char = ascii ')' then
      if count = 0 then some [] else (readArguments none count rest).map (char :: ·)
    else (readArguments none (count + 1) rest).map (char :: ·)

attribute [grind =] readArguments

def readCall (call : JsString) : Except JsString (FromAIArgument ν ι) :=
  match readArguments none 1 call with
  | none =>
    .error (js "Unbalanced parentheses while parsing $fromAI call: ".toList ++ call)
  | some argsString =>
    match parseArguments toNumber jsonParse argsString with
    | .ok parsedArgs => .ok parsedArgs
    | .error error => .error (js "Failed to parse $fromAI arguments: ".toList ++ argsString ++
        js ": Error: ".toList ++ error)

/-- `/\$fromAI\s*\(\s*/gi`: what follows each match. The next one is searched for from there on. -/
def fromAIMatches (str : JsString) : List JsString :=
  match str with
  | [] => []
  | char :: rest =>
    match _h : execFromAI (char :: rest) with
    | some (_, after) => after.dropWhile isSpace :: fromAIMatches (after.dropWhile isSpace)
    | none => fromAIMatches rest
termination_by str.length
decreasing_by
  · obtain ⟨space, -, heq⟩ := of_execFromAI _h
    have hle := List.length_dropWhile_le isSpace after
    have hlen := congrArg List.length heq
    simp only [List.length_append, List.length_cons] at hlen ⊢
    omega
  · simp

/-- The records of the calls, or the first error. -/
def extractFromAICalls (str : JsString) : Except JsString (List (FromAIArgument ν ι)) :=
  (fromAIMatches str).mapM (readCall toNumber jsonParse)

end Parse

/-! ## What the search is for -/

/-- What is left of a text at each place that is in quotes, up to the closing parenthesis. -/
def quotedTails : Option CodeUnit → ℕ → JsString → List JsString
  | _, 0, _ => []
  | _, _ + 1, [] => []
  | some _, _ + 1, [char] => [[char]]
  | some quote, count + 1, char :: next :: rest =>
    (char :: next :: rest) ::
      if char = backslash then quotedTails (some quote) (count + 1) rest
      else quotedTails (if char = quote then none else some quote) (count + 1) (next :: rest)
  | none, count + 1, char :: rest =>
    if char ∈ quoteChars then quotedTails (some char) (count + 1) rest
    else if char = ascii '(' then quotedTails none (count + 2) rest
    else if char = ascii ')' then quotedTails none count rest
    else quotedTails none (count + 1) rest

/-- What begins in quotes within a call before it is no call. -/
def withoutQuoted : List JsString → List JsString → List JsString
  | _, [] => []
  | calls, found :: rest =>
    if calls.any fun call => found ∈ quotedTails none 1 call then withoutQuoted calls rest
    else found :: withoutQuoted (calls ++ [found]) rest

attribute [grind =] quotedTails withoutQuoted

/-- The calls of a text, each from where its arguments begin. -/
def calls (str : JsString) : List JsString := withoutQuoted [] (fromAIMatches str)

inductive Argument
  | word (text : JsString)
  | quoted (quote : CodeUnit) (text : JsString)

namespace Argument

def source : Argument → JsString
  | word text => text
  | quoted quote text => quote :: (text ++ [quote])

def value : Argument → JsString
  | word text => text
  | quoted _ text => stringValue text

def IsLiteral : Argument → Prop
  | word text => isLiteralWord text
  | quoted quote text => quote ∈ quoteChars ∧ StringText quote text

end Argument

/-- An argument with the white space around it. -/
structure PlacedArgument where
  before : JsString
  argument : Argument
  after : JsString

namespace PlacedArgument

def text (arg : PlacedArgument) : JsString := arg.before ++ arg.argument.source ++ arg.after

structure IsLiteral (arg : PlacedArgument) : Prop where
  before : Blank arg.before
  argument : arg.argument.IsLiteral
  after : Blank arg.after

end PlacedArgument

def argumentsText : List PlacedArgument → JsString
  | [] => []
  | [arg] => arg.text
  | arg :: next :: args => arg.text ++ ascii ',' :: argumentsText (next :: args)

attribute [grind =] argumentsText

def argumentValues (args : List PlacedArgument) : List JsString :=
  args.map fun arg => arg.argument.value

def HasArguments (call : JsString) (args : List PlacedArgument) : Prop :=
  (∀ arg ∈ args, arg.IsLiteral) ∧ ∃ rest, call = argumentsText args ++ ascii ')' :: rest

def argumentType (values : List JsString) : Option FromAIArgumentType :=
  isFromAIArgumentType ((values[2]?.getD (js "string".toList)).map lower)

section Purpose

variable {ν ι : Type} (toNumber : JsString → Option ν) (jsonParse : JsString → Option ι)

structure HasValues (values : List JsString) (record : FromAIArgument ν ι) : Prop where
  key : record.key = values[0]?.getD []
  description : record.description = values[1]?
  type : argumentType values = some record.type
  defaultValue : record.defaultValue =
    parseDefaultValue toNumber jsonParse values[3]? record.type

/-- What the search is for. -/
structure Extracts (str : JsString) : Prop where
  /-- There is one record for each call, in their order and with their values. -/
  records : ∀ records, (calls str).mapM (readCall toNumber jsonParse) = .ok records →
    extractFromAICalls toNumber jsonParse str = .ok records ∧
      List.Forall₂ (fun call record => ∀ args, HasArguments call args →
        HasValues toNumber jsonParse (argumentValues args) record) (calls str) records
  rejects : (∃ call ∈ calls str, ∃ error, readCall toNumber jsonParse call = .error error) →
    ∃ error, extractFromAICalls toNumber jsonParse str = .error error
  /-- A text that is one call has one record, unless its arguments are invalid. -/
  only : isFromAIOnlyExpression str → ∃ call, calls str = [call] ∧
    ((∃ record, extractFromAICalls toNumber jsonParse str = .ok [record]) ∨
      ∃ error error', readCall toNumber jsonParse call = .error error ∧
        extractFromAICalls toNumber jsonParse str = .error error')

end Purpose

/-! ## Calls whose arguments are literals -/

/-- What `parseArguments` makes of an argument. -/
def Argument.read : Argument → JsString
  | word text => text
  | quoted _ text => replaceEscapes (unescaped text)

/-- An argument before its quotes are taken off. -/
def Argument.bare : Argument → JsString
  | word text => text
  | quoted quote text => quote :: (unescaped text ++ [quote])

section Literals

variable {quote : CodeUnit} {a text rest : JsString} {args : List PlacedArgument}
  {arg : PlacedArgument} {argument : Argument}

theorem ne_backslash_of_mem (hquote : quote ∈ quoteChars) : quote ≠ backslash := by
  rintro rfl
  exact absurd hquote (by decide)

theorem ne_dollar_of_mem (hquote : quote ∈ quoteChars) : quote ≠ ascii '$' := by
  rintro rfl
  exact absurd hquote (by decide)

theorem not_isSpace_of_mem (hquote : quote ∈ quoteChars) : isSpace quote = false := by
  simp only [quoteChars, List.mem_cons, List.not_mem_nil, or_false] at hquote
  rcases hquote with rfl | rfl | rfl <;> decide

/-- Units that the scan and the splitting leave alone. -/
def IsPlainUnit (c : CodeUnit) : Prop := isWordUnit c = true ∨ isSpace c = true

theorem IsPlainUnit.not_mem {c : CodeUnit} (h : IsPlainUnit c) : c ∉ quoteChars :=
  h.elim not_mem_quoteChars not_mem_quoteChars_of_isSpace

theorem IsPlainUnit.ne {c d : CodeUnit} (h : IsPlainUnit c) (hword : isWordUnit d = false)
    (hspace : isSpace d = false) : c ≠ d :=
  h.elim (fun h => ne_of_isWordUnit h hword) fun h => ne_of_isSpace h hspace

theorem isPlainUnit_of_blank (h : Blank a) : ∀ c ∈ a, IsPlainUnit c := fun c hc => .inr (h c hc)

theorem isPlainUnit_of_literalWord (h : isLiteralWord a) : ∀ c ∈ a, IsPlainUnit c :=
  fun c hc => .inl (wordUnits_of_isLiteralWord h c hc)

theorem readArguments_plain (ha : ∀ c ∈ a, IsPlainUnit c) (rest : JsString) :
    readArguments none 1 (a ++ rest) = (readArguments none 1 rest).map (a ++ ·) := by
  induction a with
  | nil => exact Option.map_id'.symm
  | cons c a ih =>
    obtain ⟨hc, ha⟩ := List.forall_mem_cons.mp ha
    rw [List.cons_append, readArguments, if_neg hc.not_mem, if_neg (hc.ne (by decide) (by decide)),
      if_neg (hc.ne (by decide) (by decide)), ih ha, Option.map_map]
    rfl

theorem ne_lineFeed_of_mem (hquote : quote ∈ quoteChars) : (0xA : CodeUnit) ≠ quote := by
  rintro rfl
  exact absurd hquote (by decide)

/-- The scan stays in quotes within a string. -/
theorem readArguments_stringText (h : StringText quote text) (hquote : quote ∈ quoteChars)
    (rest : JsString) : readArguments (some quote) 1 (text ++ quote :: rest) =
      (readArguments (some quote) 1 (quote :: rest)).map (text ++ ·) := by
  have hmore : ∀ text : JsString, ∃ next more, text ++ quote :: rest = next :: more :=
    fun text => List.exists_cons_of_ne_nil (by simp)
  induction h with
  | nil => exact Option.map_id'.symm
  | @unit c text hne hslash _ _ _ ih =>
    obtain ⟨next, more, heq⟩ := hmore text
    rw [List.cons_append, heq, readArguments, if_neg hslash, if_neg hne, ← heq, ih,
      Option.map_map]
    rfl
  | @escape c text _ _ ih =>
    rw [List.cons_append, List.cons_append, readArguments, if_pos rfl, ih, Option.map_map]
    rfl
  | @lineContinuation text _ ih =>
    obtain ⟨next, more, heq⟩ := hmore text
    rw [List.cons_append, List.cons_append, List.cons_append, readArguments, if_pos rfl, heq,
      readArguments, if_neg (by decide), if_neg (ne_lineFeed_of_mem hquote), ← heq, ih,
      Option.map_map, Option.map_map]
    rfl

theorem readArguments_argument (h : arg.IsLiteral) (hrest : rest ≠ []) :
    readArguments none 1 (arg.text ++ rest) =
      (readArguments none 1 rest).map (arg.text ++ ·) := by
  obtain ⟨before, argument, after⟩ := arg
  obtain ⟨hbefore, hargument, hafter⟩ := h
  have hsource : ∀ {rest : JsString}, rest ≠ [] →
      readArguments none 1 (argument.source ++ rest) =
        (readArguments none 1 rest).map (argument.source ++ ·) := by
    intro rest hrest
    cases argument with
    | word text => exact readArguments_plain (isPlainUnit_of_literalWord hargument) rest
    | quoted quote text =>
      obtain ⟨hquote, htext⟩ := hargument
      obtain ⟨next, more, rfl⟩ := List.exists_cons_of_ne_nil hrest
      have hassoc : ∀ rest, Argument.source (.quoted quote text) ++ rest =
          quote :: (text ++ quote :: rest) := by
        intro rest
        simp [Argument.source]
      rw [hassoc, readArguments, if_pos hquote, readArguments_stringText htext hquote,
        readArguments, if_neg (ne_backslash_of_mem hquote), if_pos rfl, Option.map_map,
        Option.map_map]
      congr 1
      funext args
      exact (hassoc args).symm
  have hne : after ++ rest ≠ [] := fun h => hrest (List.append_eq_nil_iff.mp h).2
  simp only [PlacedArgument.text, List.append_assoc]
  rw [readArguments_plain (isPlainUnit_of_blank hbefore), hsource hne,
    readArguments_plain (isPlainUnit_of_blank hafter), Option.map_map, Option.map_map]
  rfl

/-- The scan ends at the parenthesis behind the arguments. -/
theorem readArguments_arguments (h : ∀ arg ∈ args, arg.IsLiteral)
    (rest : JsString) : readArguments none 1 (argumentsText args ++ ascii ')' :: rest) =
      some (argumentsText args) := by
  have hclose : readArguments none 1 (ascii ')' :: rest) = some [] := by
    rw [readArguments, if_neg (by decide), if_neg (by decide), if_pos rfl, if_pos rfl]
  induction args using argumentsText.induct with
  | case1 => exact hclose
  | case2 arg =>
    rw [argumentsText, readArguments_argument (h _ List.mem_cons_self) (List.cons_ne_nil _ _),
      hclose, Option.map_some, List.append_nil]
  | case3 arg next args ih =>
    rw [argumentsText, List.append_assoc,
      readArguments_argument (h _ List.mem_cons_self) (by simp), List.cons_append, readArguments,
      if_neg (by decide), if_neg (by decide), if_neg (by decide),
      ih fun arg' harg' => h arg' (List.mem_cons_of_mem _ harg'), Option.map_some, Option.map_some]

theorem splitArguments_plain (ha : ∀ c ∈ a, IsPlainUnit c) (currentArg : JsString) :
    splitArguments currentArg none false (a ++ rest) =
      splitArguments (currentArg ++ a) none false rest := by
  induction a generalizing currentArg with
  | nil => rw [List.append_nil, List.nil_append]
  | cons c a ih =>
    obtain ⟨hc, ha⟩ := List.forall_mem_cons.mp ha
    have hassoc : currentArg ++ c :: a = currentArg ++ [c] ++ a := by simp
    rw [List.cons_append, splitArguments, if_neg (hc.ne (by decide) (by decide)),
      if_neg hc.not_mem, if_neg fun h => hc.ne (by decide) (by decide) h.1, ih ha, hassoc]

/-- The splitting takes the backslashes of a string away. -/
theorem splitArguments_stringText (h : StringText quote text) (hquote : quote ∈ quoteChars)
    (currentArg : JsString) : splitArguments currentArg (some quote) false (text ++ rest) =
      splitArguments (currentArg ++ unescaped text) (some quote) false rest := by
  have hassoc : ∀ (currentArg : JsString) (c : CodeUnit) (text : JsString),
      currentArg ++ c :: text = currentArg ++ [c] ++ text := by simp
  -- a unit that does not end the string is kept
  have hkeep : ∀ {c : CodeUnit} (currentArg rest : JsString), c ≠ backslash → c ≠ quote →
      splitArguments currentArg (some quote) false (c :: rest) =
        splitArguments (currentArg ++ [c]) (some quote) false rest := by
    intro c currentArg rest hslash hne
    rw [splitArguments, if_neg hslash]
    by_cases hother : c ∈ quoteChars
    · rw [if_pos hother, if_neg hne]
    · rw [if_neg hother, if_neg fun h => by cases h.2]
  induction h generalizing currentArg with
  | nil => rw [unescaped_nil, List.append_nil, List.nil_append]
  | @unit c text hne hslash _ _ _ ih =>
    rw [List.cons_append, hkeep _ _ hslash hne, ih, unescaped_cons hslash, ← hassoc]
  | @escape c text _ _ ih =>
    rw [List.cons_append, List.cons_append, splitArguments, if_pos rfl, splitArguments, ih,
      unescaped_escape, ← hassoc]
  | @lineContinuation text _ ih =>
    rw [List.cons_append, List.cons_append, List.cons_append, splitArguments, if_pos rfl,
      splitArguments, hkeep _ _ (by decide) (ne_lineFeed_of_mem hquote), ih, unescaped_escape,
      unescaped_cons (by decide), ← hassoc, ← hassoc]

theorem splitArguments_argument (h : arg.IsLiteral) :
    splitArguments [] none false (arg.text ++ rest) =
      splitArguments (arg.before ++ arg.argument.bare ++ arg.after) none false rest := by
  obtain ⟨before, argument, after⟩ := arg
  obtain ⟨hbefore, hargument, hafter⟩ := h
  have hbare : ∀ currentArg rest, splitArguments currentArg none false (argument.source ++ rest) =
      splitArguments (currentArg ++ argument.bare) none false rest := by
    intro currentArg rest
    cases argument with
    | word text => exact splitArguments_plain (isPlainUnit_of_literalWord hargument) currentArg
    | quoted quote text =>
      obtain ⟨hquote, htext⟩ := hargument
      have hassoc : Argument.source (.quoted quote text) ++ rest =
          quote :: (text ++ quote :: rest) := by simp [Argument.source]
      rw [hassoc, splitArguments, if_neg (ne_backslash_of_mem hquote), if_pos hquote,
        splitArguments_stringText htext hquote, splitArguments,
        if_neg (ne_backslash_of_mem hquote), if_pos hquote, if_pos rfl]
      simp [Argument.bare]
  simp only [PlacedArgument.text, List.append_assoc]
  rw [splitArguments_plain (isPlainUnit_of_blank hbefore), hbare,
    splitArguments_plain (isPlainUnit_of_blank hafter)]
  simp

/-- The literal is what is left without the white space. -/
theorem trim_bare (h : arg.IsLiteral) :
    trim (arg.before ++ arg.argument.bare ++ arg.after) = arg.argument.bare := by
  obtain ⟨before, argument, after⟩ := arg
  obtain ⟨hbefore, hargument, hafter⟩ := h
  cases argument with
  | word text =>
    have hne := isLiteralWord_ne_nil hargument
    have hunit : ∀ {c : CodeUnit}, c ∈ text → isSpace c = false := fun hc =>
      not_isSpace_of_isWordUnit (wordUnits_of_isLiteralWord hargument _ hc)
    exact trim_eq hbefore hafter (List.head?_eq_some_head hne) (hunit (List.head_mem hne))
      (List.getLast?_eq_some_getLast hne) (hunit (List.getLast_mem hne))
  | quoted quote text =>
    have hspace := not_isSpace_of_mem hargument.1
    exact trim_eq hbefore hafter rfl hspace (@List.getLast?_concat _ (quote :: unescaped text) _)
      hspace

theorem Argument.bare_ne_nil (h : argument.IsLiteral) : argument.bare ≠ [] := by
  cases argument with
  | word text => exact isLiteralWord_ne_nil h
  | quoted quote text => exact List.cons_ne_nil _ _

/-- The arguments of a call are taken apart. -/
theorem splitArguments_arguments (h : ∀ arg ∈ args, arg.IsLiteral) :
    splitArguments [] none false (argumentsText args) = args.map fun arg => arg.argument.bare := by
  induction args using argumentsText.induct with
  | case1 => rfl
  | case2 arg =>
    have harg := h _ List.mem_cons_self
    have hsplit := @splitArguments_argument [] arg harg
    rw [List.append_nil] at hsplit
    have hne : arg.before ++ arg.argument.bare ++ arg.after ≠ [] := by
      intro hnil
      exact Argument.bare_ne_nil harg.argument
        (List.append_eq_nil_iff.mp (List.append_eq_nil_iff.mp hnil).1).2
    rw [argumentsText, hsplit, splitArguments, trim_bare harg, if_neg hne]
    rfl
  | case3 arg next args ih =>
    have harg := h _ List.mem_cons_self
    rw [argumentsText, splitArguments_argument harg, splitArguments, if_neg (by decide),
      if_neg (by decide), if_pos ⟨rfl, rfl⟩, trim_bare harg,
      ih fun arg' harg' => h arg' (List.mem_cons_of_mem _ harg')]
    rfl

/-- The quotes around an argument are taken off. -/
theorem cleanArgument_bare (h : argument.IsLiteral) :
    cleanArgument argument.bare = argument.read := by
  have htrim := @trim_bare ⟨[], argument, []⟩ ⟨Blank.nil, h, Blank.nil⟩
  rw [List.nil_append, List.append_nil] at htrim
  unfold cleanArgument
  dsimp only
  rw [htrim]
  cases argument with
  | word text =>
    rw [if_neg]
    · rfl
    · intro hany
      obtain ⟨quote, hquote, hends⟩ := List.any_eq_true.mp hany
      have hhead : text.head? = some quote := (of_decide_eq_true hends).1
      have hunit := wordUnits_of_isLiteralWord h quote (List.mem_of_mem_head? hhead)
      apply not_mem_quoteChars hunit
      simp only [quoteChars, List.mem_cons, List.not_mem_nil, or_false] at hquote ⊢
      tauto
  | quoted quote text =>
    obtain ⟨hquote, -⟩ := h
    rw [if_pos]
    · rw [Argument.bare, List.drop_succ_cons, List.drop_zero, List.dropLast_concat]
      rfl
    · refine List.any_eq_true.mpr ⟨quote, ?_, decide_eq_true ⟨rfl, ?_⟩⟩
      · simp only [quoteChars, List.mem_cons, List.not_mem_nil, or_false] at hquote ⊢
        tauto
      · exact @List.getLast?_concat _ (quote :: unescaped text) _

section Parse

variable {ν ι : Type} {toNumber : JsString → Option ν} {jsonParse : JsString → Option ι}
  {record : FromAIArgument ν ι}

theorem toArgument_eq_ok_iff {values : List JsString} :
    toArgument toNumber jsonParse values = .ok record ↔
      HasValues toNumber jsonParse values record := by
  unfold toArgument
  constructor
  · intro h
    dsimp only at h
    split at h
    · cases h
    · rename_i type htype
      cases h
      exact ⟨rfl, rfl, htype, rfl⟩
  · rintro ⟨hkey, hdescription, htype, hdefault⟩
    unfold argumentType at htype
    dsimp only
    rw [htype]
    obtain ⟨key, description, type, defaultValue⟩ := record
    simp only at hkey hdescription hdefault
    rw [hkey, hdescription, hdefault]

/-- **A call whose arguments are literals**: the record has the values that are read. -/
theorem hasValues_read {call : JsString} (h : HasArguments call args)
    (hread : readCall toNumber jsonParse call = .ok record) :
    HasValues toNumber jsonParse (args.map fun arg => arg.argument.read) record := by
  obtain ⟨hargs, rest, rfl⟩ := h
  have hclean : (splitArguments [] none false (argumentsText args)).map cleanArgument =
      args.map fun arg => arg.argument.read := by
    rw [splitArguments_arguments hargs, List.map_map]
    exact List.map_congr_left fun arg harg => cleanArgument_bare (hargs arg harg).argument
  unfold readCall at hread
  rw [readArguments_arguments hargs] at hread
  dsimp only at hread
  split at hread
  · rename_i parsed hparsed
    cases hread
    rw [parseArguments, hclean] at hparsed
    exact toArgument_eq_ok_iff.mp hparsed
  · cases hread

end Parse

def Unambiguous (text : JsString) : Prop :=
  ∀ c ∈ backslash :: quoteChars, ¬ [backslash, c] <:+: text

theorem length_replaceEscaped_le (c : CodeUnit) :
    ∀ text : JsString, (replaceEscaped c text).length ≤ text.length
  | [] | [_] => le_refl _
  | char :: next :: rest => by
    by_cases h : char = backslash ∧ next = c
    · have ih := length_replaceEscaped_le c rest
      rw [replaceEscaped, if_pos h]
      simp only [List.length_cons]
      omega
    · have ih := length_replaceEscaped_le c (next :: rest)
      rw [replaceEscaped, if_neg h]
      simp only [List.length_cons] at ih ⊢
      omega

/-- What has no such pair stays as it is, and what has one gets shorter. -/
theorem replaceEscaped_eq_self_iff (c : CodeUnit) : ∀ text : JsString,
    ((replaceEscaped c text).length = text.length ↔ ¬ [backslash, c] <:+: text) ∧
      (¬ [backslash, c] <:+: text → replaceEscaped c text = text)
  | [] => by
    have hshort : ¬ [backslash, c] <:+: [] := fun h => by simpa using h.length_le
    exact ⟨iff_of_true rfl hshort, fun _ => rfl⟩
  | [char] => by
    have hshort : ¬ [backslash, c] <:+: [char] := fun h => by simpa using h.length_le
    exact ⟨iff_of_true rfl hshort, fun _ => rfl⟩
  | char :: next :: rest => by
    by_cases h : char = backslash ∧ next = c
    · obtain ⟨rfl, rfl⟩ := h
      have hinfix : [backslash, next] <:+: backslash :: next :: rest := ⟨[], rest, rfl⟩
      have hle := length_replaceEscaped_le next rest
      refine ⟨iff_of_false ?_ (not_not_intro hinfix), fun h => absurd hinfix h⟩
      rw [replaceEscaped, if_pos ⟨rfl, rfl⟩]
      simp only [List.length_cons]
      omega
    · obtain ⟨hlength, hsame⟩ := replaceEscaped_eq_self_iff c (next :: rest)
      have hinfix : [backslash, c] <:+: char :: next :: rest ↔
          [backslash, c] <:+: next :: rest := by
        rw [List.infix_cons_iff]
        refine or_iff_right ?_
        rintro ⟨_, hpair⟩
        obtain ⟨hchar, hrest⟩ := List.cons.inj hpair
        exact h ⟨hchar.symm, (List.cons.inj hrest).1.symm⟩
      rw [replaceEscaped, if_neg h, hinfix, ← hlength, List.length_cons, List.length_cons]
      refine ⟨Nat.succ_inj, fun hlen => ?_⟩
      rw [hsame (hlength.mp hlen)]

/-- The four replacements leave a text as it is exactly if it has none of the pairs. -/
theorem replaceEscapes_eq_self_iff : replaceEscapes text = text ↔ Unambiguous text := by
  have hforall : Unambiguous text ↔ ¬ [backslash, ascii '\''] <:+: text ∧
      ¬ [backslash, ascii '`'] <:+: text ∧ ¬ [backslash, ascii '"'] <:+: text ∧
      ¬ [backslash, backslash] <:+: text := by
    simp only [Unambiguous, quoteChars, List.mem_cons, List.not_mem_nil, or_false, forall_eq_or_imp,
      forall_eq]
    tauto
  have hkeep := fun c => replaceEscaped_eq_self_iff c text
  rw [hforall]
  unfold replaceEscapes
  constructor
  · intro h
    -- no replacement makes the text longer, so none makes it shorter
    have hlen := congrArg List.length h
    have h₁ := length_replaceEscaped_le (ascii '\'') text
    have h₂ := length_replaceEscaped_le (ascii '`') (replaceEscaped (ascii '\'') text)
    have h₃ := length_replaceEscaped_le (ascii '"')
      (replaceEscaped (ascii '`') (replaceEscaped (ascii '\'') text))
    have h₄ := length_replaceEscaped_le backslash (replaceEscaped (ascii '"')
      (replaceEscaped (ascii '`') (replaceEscaped (ascii '\'') text)))
    have hsingle := (hkeep (ascii '\'')).1.mp (by omega)
    rw [(hkeep (ascii '\'')).2 hsingle] at h₂ h₃ h₄ hlen
    have hback := (hkeep (ascii '`')).1.mp (by omega)
    rw [(hkeep (ascii '`')).2 hback] at h₃ h₄ hlen
    have hdouble := (hkeep (ascii '"')).1.mp (by omega)
    rw [(hkeep (ascii '"')).2 hdouble] at h₄ hlen
    exact ⟨hsingle, hback, hdouble, (hkeep backslash).1.mp hlen⟩
  · rintro ⟨hsingle, hback, hdouble, hbackslash⟩
    rw [(hkeep (ascii '\'')).2 hsingle, (hkeep (ascii '`')).2 hback, (hkeep (ascii '"')).2 hdouble,
      (hkeep backslash).2 hbackslash]

theorem unslashed_replaceEscaped (c : CodeUnit) :
    ∀ text : JsString, unslashed (replaceEscaped c text) = unslashed text
  | [] | [_] => rfl
  | char :: next :: rest => by
    have hcons : ∀ (d : CodeUnit) (s : JsString), unslashed (d :: s) = unslashed [d] ++ unslashed s :=
      fun d s => @unslashed_append s [d]
    by_cases h : char = backslash ∧ next = c
    · have ih := unslashed_replaceEscaped c rest
      obtain ⟨rfl, rfl⟩ := h
      rw [replaceEscaped, if_pos ⟨rfl, rfl⟩, hcons next, ih, hcons backslash, hcons next rest]
      rfl
    · have ih := unslashed_replaceEscaped c (next :: rest)
      rw [replaceEscaped, if_neg h, hcons char, ih, ← hcons]

theorem unslashed_replaceEscapes (text : JsString) :
    unslashed (replaceEscapes text) = unslashed text := by
  unfold replaceEscapes
  rw [unslashed_replaceEscaped, unslashed_replaceEscaped, unslashed_replaceEscaped,
    unslashed_replaceEscaped]

theorem replaceEscaped_eq_self_or_mem (c : CodeUnit) :
    ∀ text : JsString, replaceEscaped c text = text ∨ c ∈ replaceEscaped c text
  | [] | [_] => .inl rfl
  | char :: next :: rest => by
    by_cases h : char = backslash ∧ next = c
    · rw [replaceEscaped, if_pos h]
      exact .inr List.mem_cons_self
    · rw [replaceEscaped, if_neg h]
      exact (replaceEscaped_eq_self_or_mem c (next :: rest)).imp (congrArg _)
        (List.mem_cons_of_mem _)

theorem replaceEscapes_eq_self (h : ∀ c ∈ backslash :: quoteChars, c ∉ replaceEscapes text) :
    replaceEscapes text = text := by
  have hkeep : ∀ c ∈ backslash :: quoteChars, ∀ {s}, c ∉ replaceEscaped c s →
      replaceEscaped c s = s :=
    fun c _ s hc => (replaceEscaped_eq_self_or_mem c s).resolve_right hc
  unfold replaceEscapes at h ⊢
  have hback := hkeep backslash (by decide) (h _ (by decide))
  rw [hback] at h ⊢
  have hdouble := hkeep (ascii '"') (by decide) (h _ (by decide))
  rw [hdouble] at h ⊢
  have htick := hkeep (ascii '`') (by decide) (h _ (by decide))
  rw [htick] at h ⊢
  exact hkeep (ascii '\'') (by decide) (h _ (by decide))

/-- Each escape of a string stands for the unit behind the backslash, and its value has no escapes
again. -/
def Argument.IsFaithful : Argument → Prop
  | word _ => True
  | quoted _ text => plainEscapes text = true ∧ Unambiguous (unescaped text)

/-- Faithful arguments are read as what they stand for, and no others are. -/
theorem Argument.read_eq_value_iff (h : argument.IsLiteral) :
    argument.read = argument.value ↔ argument.IsFaithful := by
  cases argument with
  | word text => exact iff_of_true rfl trivial
  | quoted quote text =>
    obtain ⟨-, htext⟩ := h
    show replaceEscapes (unescaped text) = stringValue text ↔ _
    constructor
    · intro hread
      have hunslashed : unslashed (stringValue text) = unslashed (unescaped text) := by
        rw [← hread, unslashed_replaceEscapes]
      have hplain := plainEscapes_of_unslashed htext (congrArg _ hunslashed)
      rw [stringValue_eq htext hplain] at hread
      exact ⟨hplain, replaceEscapes_eq_self_iff.mp hread⟩
    · rintro ⟨hplain, hunambiguous⟩
      rw [replaceEscapes_eq_self_iff.mpr hunambiguous, stringValue_eq htext hplain]

end Literals

/-! ## Types -/

def FromAIArgumentType.text : FromAIArgumentType → JsString
  | string => js "string".toList
  | number => js "number".toList
  | boolean => js "boolean".toList
  | json => js "json".toList

section Types

variable {type : FromAIArgumentType} {text : JsString}

theorem eq_of_isFromAIArgumentType (h : isFromAIArgumentType text = some type) :
    text = type.text := by
  unfold isFromAIArgumentType at h
  split_ifs at h with hstring hnumber hboolean hjson
  all_goals
    cases h
    assumption

theorem not_mem_of_isFromAIArgumentType (h : isFromAIArgumentType (text.map lower) = some type) :
    ∀ c ∈ backslash :: quoteChars, c ∉ text := by
  have hlower : (backslash :: quoteChars).all (fun c => lower c ∉ type.text) = true := by
    cases type <;> decide
  intro c hc hmem
  apply of_decide_eq_true (List.all_eq_true.mp hlower c hc)
  exact eq_of_isFromAIArgumentType h ▸ List.mem_map_of_mem hmem

/-- An argument that is read as a type stands for it exactly if it is faithful. -/
theorem Argument.isFromAIArgumentType_iff {argument : Argument} (h : argument.IsLiteral)
    (hread : isFromAIArgumentType (argument.read.map lower) = some type) :
    isFromAIArgumentType (argument.value.map lower) = some type ↔ argument.IsFaithful := by
  refine ⟨fun hvalue => ?_, fun hfaithful => ?_⟩
  · cases argument with
    | word text => trivial
    | quoted quote text =>
      have hsame : (stringValue text).map lower = (replaceEscapes (unescaped text)).map lower :=
        (eq_of_isFromAIArgumentType hvalue).trans (eq_of_isFromAIArgumentType hread).symm
      have hunits := not_mem_of_isFromAIArgumentType hread
      have hself := replaceEscapes_eq_self hunits
      have hnone : backslash ∉ stringValue text :=
        not_mem_of_isFromAIArgumentType hvalue _ List.mem_cons_self
      have hslash : ∀ {s : JsString}, backslash ∉ s → unslashed s = s :=
        fun hs => unslashed_eq_self fun c hc heq => hs (heq ▸ hc)
      refine ⟨plainEscapes_of_unslashed h.2 ?_, replaceEscapes_eq_self_iff.mp hself⟩
      rw [hslash hnone, hsame, hself, hslash (hself ▸ hunits _ List.mem_cons_self)]
  · rwa [← (read_eq_value_iff h).mpr hfaithful]

end Types

/-! ## Values and records -/

section Kept

variable {ν ι : Type} (toNumber : JsString → Option ν) (jsonParse : JsString → Option ι)

/-- The default value is the same with and without the escapes. -/
def KeepsDefault (type : FromAIArgumentType) (argument : Argument) : Prop :=
  argument.IsFaithful ∨ type ≠ .string ∧
    parseDefaultValue toNumber jsonParse (some argument.read) type =
      parseDefaultValue toNumber jsonParse (some argument.value) type

/-- The values of the arguments are kept: the key, the description and the type are faithful, and
the default value is, or makes no difference. -/
def KeepsValues (args : List PlacedArgument) : Prop :=
  (∀ arg ∈ args.take 3, arg.argument.IsFaithful) ∧
    ∀ arg ∈ args[3]?, ∀ type, argumentType (argumentValues args) = some type →
      KeepsDefault toNumber jsonParse type arg.argument

variable {toNumber jsonParse} {args : List PlacedArgument} {record : FromAIArgument ν ι}

theorem keepsDefault_iff {type : FromAIArgumentType} {argument : Argument}
    (h : argument.IsLiteral) : KeepsDefault toNumber jsonParse type argument ↔
      parseDefaultValue toNumber jsonParse (some argument.read) type =
        parseDefaultValue toNumber jsonParse (some argument.value) type := by
  unfold KeepsDefault
  rw [← Argument.read_eq_value_iff h]
  refine ⟨fun hkeep => ?_, fun hsame => ?_⟩
  · rcases hkeep with hread | ⟨-, hsame⟩
    · rw [hread]
    · exact hsame
  · by_cases htype : type = .string
    · subst htype
      left
      simpa [parseDefaultValue] using hsame
    · exact .inr ⟨htype, hsame⟩

theorem forall_mem_take_three {P : PlacedArgument → Prop} : (∀ arg ∈ args.take 3, P arg) ↔
    (∀ arg ∈ args[0]?, P arg) ∧ (∀ arg ∈ args[1]?, P arg) ∧ ∀ arg ∈ args[2]?, P arg := by
  rcases args with _ | ⟨a, _ | ⟨b, _ | ⟨c, args⟩⟩⟩ <;> simp

/-- **The record has the values of the arguments** exactly if these are kept. -/
theorem hasValues_iff (hargs : ∀ arg ∈ args, arg.IsLiteral)
    (hread : HasValues toNumber jsonParse (args.map fun arg => arg.argument.read) record) :
    HasValues toNumber jsonParse (argumentValues args) record ↔
      KeepsValues toNumber jsonParse args := by
  obtain ⟨hkey, hdescription, htype, hdefault⟩ := hread
  have hlit : ∀ {i : ℕ} {arg}, args[i]? = some arg → arg.argument.IsLiteral :=
    fun h => (hargs _ (List.mem_of_getElem? h)).argument
  unfold argumentType at htype
  rw [List.getElem?_map] at hkey hdescription htype hdefault
  have hkey_iff : record.key = (argumentValues args)[0]?.getD [] ↔
      ∀ arg ∈ args[0]?, arg.argument.IsFaithful := by
    rw [hkey, argumentValues, List.getElem?_map]
    cases harg : args[0]? with
    | none => simp
    | some arg => simpa using Argument.read_eq_value_iff (hlit harg)
  have hdescription_iff : record.description = (argumentValues args)[1]? ↔
      ∀ arg ∈ args[1]?, arg.argument.IsFaithful := by
    rw [hdescription, argumentValues, List.getElem?_map]
    cases harg : args[1]? with
    | none => simp
    | some arg => simpa using Argument.read_eq_value_iff (hlit harg)
  have htype_iff : argumentType (argumentValues args) = some record.type ↔
      ∀ arg ∈ args[2]?, arg.argument.IsFaithful := by
    rw [argumentType, argumentValues, List.getElem?_map]
    cases harg : args[2]? with
    | none =>
      rw [harg] at htype
      exact iff_of_true htype (by simp)
    | some arg =>
      rw [harg] at htype
      simpa using Argument.isFromAIArgumentType_iff (hlit harg) htype
  have hdefault_iff : record.defaultValue =
        parseDefaultValue toNumber jsonParse (argumentValues args)[3]? record.type ↔
      ∀ arg ∈ args[3]?, KeepsDefault toNumber jsonParse record.type arg.argument := by
    rw [hdefault, argumentValues, List.getElem?_map]
    cases harg : args[3]? with
    | none => simp
    | some arg => simpa using (keepsDefault_iff (hlit harg)).symm
  unfold KeepsValues
  rw [forall_mem_take_three, ← hkey_iff, ← hdescription_iff, ← htype_iff]
  constructor
  · rintro ⟨hkey', hdescription', htype', hdefault'⟩
    refine ⟨⟨hkey', hdescription', htype'⟩, fun arg harg type htyped => ?_⟩
    obtain rfl := Option.some.inj (htype'.symm.trans htyped)
    exact hdefault_iff.mp hdefault' arg harg
  · rintro ⟨⟨hkey', hdescription', htype'⟩, hdefault'⟩
    exact ⟨hkey', hdescription', htype',
      hdefault_iff.mpr fun arg harg => hdefault' arg harg _ htype'⟩

end Kept

end N8n.FromAI
