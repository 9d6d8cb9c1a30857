import N8n.Expressions.ExtractCalls
import N8n.Foundations.Failure

/-!
# Calls within calls

Two readers of one syntax: the search for calls of `$fromAI`, and the check that a text is one such
call. A text that the check accepts has one call, and whatever else the search finds in it stands in
quotes.

## Main results

* `mem_quotedTails_of_walk`: within a call that the check walks through, each match is in quotes
* `calls_of_accepted`: a text that `isFromAIOnlyExpression` accepts has one call
* `extracts_iff`: exactly when the search does what it is for
* `not_extracts`: a description that mentions a call
-/

namespace N8n.FromAI

open Failure (mapM_eq_ok_iff exists_mapM exists_mapM_error)

/-! ## Texts that are one call -/

/-- Units that are no quote, backslash or dollar sign. -/
def IsInner (block : JsString) : Prop :=
  ∀ c ∈ block, c ∉ quoteChars ∧ c ≠ backslash ∧ c ≠ ascii '$'

section Accepted

variable {quote c : CodeUnit} {last : Option CodeUnit} {s t r block rest : JsString}
  {name after : JsString}

theorem IsInner.append (h : IsInner s) (h' : IsInner t) : IsInner (s ++ t) :=
  fun c hc => (List.mem_append.mp hc).elim (h c) (h' c)

theorem isInner_of_isPlainUnit (h : ∀ c ∈ s, IsPlainUnit c) : IsInner s := fun c hc =>
  ⟨(h c hc).not_mem, (h c hc).ne (by decide) (by decide), (h c hc).ne (by decide) (by decide)⟩

/-- Only the dollar sign is a dollar sign in lower case. -/
theorem eq_of_lower (h : lower c = ascii '$') : c = ascii '$' := by
  unfold lower at h
  split_ifs at h with hupper
  · rw [Bool.and_eq_true, decide_eq_true_eq, decide_eq_true_eq, UInt16.le_iff_toNat_le,
      UInt16.le_iff_toNat_le] at hupper
    have hnat := congrArg UInt16.toNat h
    rw [UInt16.toNat_add] at hnat
    have hA : (ascii 'A').toNat = 65 := rfl
    have hZ : (ascii 'Z').toNat = 90 := rfl
    have hd : (ascii '$').toNat = 36 := rfl
    have h32 : (32 : CodeUnit).toNat = 32 := rfl
    omega
  · exact h

theorem lower_of_execFromAI (h : execFromAI s = some (name, after)) :
    name.map lower = js "$fromai".toList := by
  simp only [execFromAI] at h
  split_ifs at h with hlower
  split at h
  · cases h
  · split_ifs at h
    exact (Prod.mk.inj (Option.some.inj h)).1 ▸ hlower

theorem execFromAI_append (h : execFromAI s = some (name, after)) (t : JsString) :
    execFromAI (s ++ t) = some (name, after ++ t) := by
  have hlower := lower_of_execFromAI h
  obtain ⟨space, hspace, rfl⟩ := of_execFromAI h
  have hlength : name.length = 7 := by
    have hlen := congrArg List.length hlower
    rw [List.length_map] at hlen
    exact hlen.trans (by decide)
  have heq : name ++ (space ++ ascii '(' :: after) ++ t =
      name ++ (space ++ ascii '(' :: (after ++ t)) := by simp
  have htake : (name ++ (space ++ ascii '(' :: (after ++ t))).take 7 = name := by
    rw [← hlength, List.take_left]
  have hdrop : ((name ++ (space ++ ascii '(' :: (after ++ t))).drop 7).dropWhile isSpace =
      ascii '(' :: (after ++ t) := by
    rw [← hlength, List.drop_left, dropWhile_blank hspace, List.dropWhile_cons_of_neg (by decide)]
  simp only [heq, execFromAI, htake, hdrop, hlower, if_true]

/-- Where a call begins, the units up to its arguments are no quotes, and after the first one no
dollar signs. -/
theorem execFromAI_inner (h : execFromAI s = some (name, after)) :
    ∃ block, s = ascii '$' :: (block ++ after) ∧ IsInner block := by
  obtain ⟨space, hspace, hs⟩ := of_execFromAI h
  have hname := lower_of_execFromAI h
  cases name with
  | nil => exact absurd hname.symm (by decide)
  | cons c name =>
    have hsplit : js "$fromai".toList = ascii '$' :: js "fromai".toList := by decide
    rw [hsplit, List.map_cons] at hname
    obtain ⟨hfirst, hletters⟩ := List.cons.inj hname
    obtain rfl := eq_of_lower hfirst
    refine ⟨name ++ (space ++ [ascii '(']), by rw [hs]; simp, ?_⟩
    refine .append (isInner_of_isPlainUnit fun d hd => .inl ?_)
      (.append (isInner_of_isPlainUnit (isPlainUnit_of_blank hspace)) ?_)
    · have hmem : lower d ∈ js "fromai".toList := hletters ▸ List.mem_map_of_mem hd
      have hall : (js "fromai".toList).all isAlphanumeric = true := by decide
      exact isWordUnit_of_lower (List.all_eq_true.mp hall _ hmem)
    · intro d hd
      obtain rfl := List.mem_singleton.mp hd
      decide

/-- The search goes on behind the parenthesis of a call, and otherwise behind the unit. -/
theorem fromAIMatches_cons (c : CodeUnit) (rest : JsString) :
    fromAIMatches (c :: rest) = fromAIMatches rest ∨ ∃ block t, c = ascii '$' ∧ rest = block ++ t ∧
      IsInner block ∧ fromAIMatches (c :: rest) = t :: fromAIMatches t := by
  rw [fromAIMatches]
  split
  · rename_i name after hexec
    obtain ⟨block, hs, hblock⟩ := execFromAI_inner hexec
    obtain ⟨rfl, hrest⟩ := List.cons.inj hs
    refine .inr ⟨block ++ after.takeWhile isSpace, _, rfl, ?_, hblock.append
      (isInner_of_isPlainUnit (isPlainUnit_of_blank (blank_takeWhile after))), rfl⟩
    rw [hrest, List.append_assoc, List.takeWhile_append_dropWhile]
  · exact .inl rfl

theorem fromAIMatches_of_ne (h : c ≠ ascii '$') (rest : JsString) :
    fromAIMatches (c :: rest) = fromAIMatches rest :=
  (fromAIMatches_cons c rest).resolve_right fun ⟨_, _, hc, _⟩ => h hc

theorem fromAIMatches_append (h : ascii '$' ∉ s) (rest : JsString) :
    fromAIMatches (s ++ rest) = fromAIMatches rest := by
  induction s with
  | nil => rfl
  | cons c s ih =>
    obtain ⟨hc, hs⟩ := not_or.mp (List.mem_cons.not.mp h)
    rw [List.cons_append, fromAIMatches_of_ne (Ne.symm hc), ih hs]

theorem fromAIMatches_eq_nil (h : ascii '$' ∉ s) : fromAIMatches s = [] := by
  have happend := fromAIMatches_append h []
  rw [List.append_nil] at happend
  rw [happend, fromAIMatches]

theorem fromAIMatches_of_exec (h : execFromAI s = some (name, after)) :
    fromAIMatches s = after.dropWhile isSpace :: fromAIMatches (after.dropWhile isSpace) := by
  cases s with
  | nil => simp [execFromAI, js] at h
  | cons char rest =>
    rw [fromAIMatches]
    split
    · rename_i name' after' hexec
      rw [h] at hexec
      obtain ⟨-, rfl⟩ := Prod.mk.inj (Option.some.inj hexec)
      rfl
    · rename_i hexec
      rw [h] at hexec
      cases hexec

/-- What follows the closing parenthesis does not change the walk to it. -/
theorem walk_append {q : Option CodeUnit} (h : walk q last s = some r) (t : JsString) :
    walk q last (s ++ t) = some (r ++ t) := by
  induction q, last, s using walk.induct with
  | case1 => cases h
  | case2 => cases h
  | case3 q last next rest ih =>
    rw [walk, if_pos rfl] at h
    rw [List.cons_append, List.cons_append, walk, if_pos rfl, ih h]
  | case4 q last char next rest hslash hinter =>
    rw [walk, if_neg hslash, if_pos hinter] at h
    cases h
  | case5 last char next rest hslash hinter ih =>
    rw [walk, if_neg hslash, if_neg hinter, if_pos rfl] at h
    rw [List.cons_append, List.cons_append, walk, if_neg hslash, if_neg hinter, if_pos rfl,
      ← List.cons_append, ih h]
  | case6 q last char next rest hslash hinter hquote ih =>
    rw [walk, if_neg hslash, if_neg hinter, if_neg hquote] at h
    rw [List.cons_append, List.cons_append, walk, if_neg hslash, if_neg hinter, if_neg hquote,
      ← List.cons_append, ih h]
  | case7 last char rest hquote htag =>
    rw [walk, if_pos hquote, if_pos htag] at h
    cases h
  | case8 last char rest hquote htag ih =>
    rw [walk, if_pos hquote, if_neg htag] at h
    rw [List.cons_append, walk, if_pos hquote, if_neg htag, ih h]
  | case9 last rest hquote =>
    rw [walk, if_neg hquote, if_pos rfl] at h
    cases h
    rw [List.cons_append, walk, if_neg hquote, if_pos rfl]
  | case10 last char rest hquote hclose hunit ih =>
    rw [walk, if_neg hquote, if_neg hclose, if_pos hunit] at h
    rw [List.cons_append, walk, if_neg hquote, if_neg hclose, if_pos hunit, ih h]
  | case11 last char rest hquote hclose hunit =>
    rw [walk, if_neg hquote, if_neg hclose, if_neg hunit] at h
    cases h

theorem walk_dropWhile (last : Option CodeUnit) (s : JsString) :
    walk none last (s.dropWhile isSpace) = walk none last s := by
  induction s with
  | nil => rfl
  | cons c s ih =>
    by_cases hc : isSpace c = true
    · rw [List.dropWhile_cons_of_pos hc, ih, walk_space hc]
    · rw [List.dropWhile_cons_of_neg hc]

/-- Inner units do not end a string. -/
theorem walk_inner (hquote : quote ∈ quoteChars) (hblock : IsInner block)
    (h : walk (some quote) last (block ++ t) = some r) :
    walk (some quote) last t = some r ∧
      ∀ m ∈ quotedTails (some quote) 1 t, m ∈ quotedTails (some quote) 1 (block ++ t) := by
  induction block with
  | nil => exact ⟨h, fun m hm => hm⟩
  | cons c block ih =>
    obtain ⟨⟨hc, hslash, hdollar⟩, hblock⟩ := List.forall_mem_cons.mp hblock
    have hne : c ≠ quote := fun heq => hc (heq ▸ hquote)
    cases hmore : block ++ t with
    | nil =>
      rw [List.cons_append, hmore, walk] at h
      cases h
    | cons next more =>
      rw [List.cons_append, hmore, walk, if_neg hslash, if_neg fun h => hdollar h.2.1, if_neg hne,
        ← hmore] at h
      obtain ⟨hwalk, htails⟩ := ih hblock h
      refine ⟨hwalk, fun m hm => ?_⟩
      rw [List.cons_append, hmore, quotedTails, if_neg hslash, if_neg hne, ← hmore]
      exact List.mem_cons_of_mem _ (htails m hm)

theorem mem_quotedTails_self (h : walk (some quote) last s = some r) :
    s ∈ quotedTails (some quote) 1 s := by
  match s, h with
  | _ :: _ :: _, _ =>
    rw [quotedTails]
    exact List.mem_cons_self

/-- Where the walk comes to an end, each match on its way is in quotes. -/
theorem mem_quotedTails_of_walk {q : Option CodeUnit} (hq : ∀ quote ∈ q, quote ∈ quoteChars)
    (h : walk q last s = some r) (hr : ascii '$' ∉ r) :
    ∀ m ∈ fromAIMatches s, m ∈ quotedTails q 1 s := by
  induction hn : s.length using Nat.strong_induction_on generalizing q last s with
  | _ n ih =>
    -- within a string the search goes on at the next unit, or behind a match
    have hstep : ∀ {quote c rest}, quote ∈ quoteChars → (c :: rest).length ≤ n →
        walk (some quote) last rest = some r →
        (∀ m ∈ fromAIMatches rest, m ∈ quotedTails (some quote) 1 rest) →
        ∀ m ∈ fromAIMatches (c :: rest), m ∈ quotedTails (some quote) 1 rest := by
      intro quote c rest hquote hle hwalk hmatches m hm
      obtain heq | ⟨block, t, -, rfl, hblock, heq⟩ := fromAIMatches_cons c rest
      · exact hmatches m (heq ▸ hm)
      · obtain ⟨hwalk', htails⟩ := walk_inner hquote hblock hwalk
        have hlt : t.length < n := by
          simp only [List.length_cons, List.length_append] at hle
          omega
        rw [heq] at hm
        rcases List.mem_cons.mp hm with rfl | hm
        · exact htails _ (mem_quotedTails_self hwalk')
        · exact htails m (ih _ hlt (by simpa using hquote) hwalk' rfl m hm)
    match q, s, h with
    | some quote, char :: next :: rest, h =>
      have hquote := hq quote rfl
      have hinner : ∀ {s}, s.length < n → walk (some quote) last s = some r →
          ∀ m ∈ fromAIMatches s, m ∈ quotedTails (some quote) 1 s :=
        fun hlt hwalk => ih _ hlt hq hwalk rfl
      intro m hm
      rw [quotedTails]
      apply List.mem_cons_of_mem
      rw [walk] at h
      split_ifs at h with hslash hinter hclose
      · rw [if_pos hslash]
        rw [fromAIMatches_of_ne (hslash ▸ by decide)] at hm
        have hlt : rest.length < n := by
          rw [← hn, List.length_cons, List.length_cons]
          omega
        have hle : (next :: rest).length ≤ n := by
          rw [← hn, List.length_cons]
          exact Nat.le_succ _
        exact hstep hquote hle h (hinner hlt h) m hm
      · rw [if_neg hslash, if_pos hclose]
        rw [fromAIMatches_of_ne (hclose ▸ ne_dollar_of_mem hquote)] at hm
        exact ih _ (by rw [← hn]; simp) (by simp) h rfl m hm
      · rw [if_neg hslash, if_neg hclose]
        exact hstep hquote hn.le h (hinner (by rw [← hn]; simp) h) m hm
    | none, char :: rest, h =>
      have hlt : rest.length < n := by rw [← hn]; simp
      intro m hm
      rw [quotedTails]
      rw [walk] at h
      have hother : (isWordUnit char || char == ascii ',' || isSpace char) = true →
          char ≠ ascii '(' ∧ char ≠ ascii '$' := by
        intro hunit
        constructor <;> rintro rfl <;> exact absurd hunit (by decide)
      split_ifs at h with hquote htag hclose hunit hspace
      · rw [if_pos hquote]
        rw [fromAIMatches_of_ne (ne_dollar_of_mem hquote)] at hm
        exact ih _ hlt (by simpa using hquote) h rfl m hm
      · -- only what follows the parenthesis is left
        cases h
        rw [fromAIMatches_of_ne (hclose ▸ by decide), fromAIMatches_eq_nil hr] at hm
        cases hm
      all_goals
        obtain ⟨hopen, hdollar⟩ := hother hunit
        rw [if_neg hquote, if_neg hopen, if_neg hclose]
        rw [fromAIMatches_of_ne hdollar] at hm
        exact ih _ hlt (by simp) h rfl m hm

theorem withoutQuoted_eq_nil {found cs : List JsString}
    (h : ∀ m ∈ found, ∃ call ∈ cs, m ∈ quotedTails none 1 call) : withoutQuoted cs found = [] := by
  induction found with
  | nil => rfl
  | cons m found ih =>
    obtain ⟨hm, hfound⟩ := List.forall_mem_cons.mp h
    obtain ⟨call, hcall, hquoted⟩ := hm
    rw [withoutQuoted, if_pos, ih hfound]
    exact List.any_eq_true.mpr ⟨call, hcall, decide_eq_true hquoted⟩

def IsAround (code str : JsString) : Prop :=
  ∃ before after, ascii '$' ∉ before ∧ ascii '$' ∉ after ∧ str = before ++ code ++ after

theorem IsAround.extend {code str before after : JsString} (h : IsAround code str)
    (hbefore : ascii '$' ∉ before) (hafter : ascii '$' ∉ after) :
    IsAround code (before ++ str ++ after) := by
  obtain ⟨a, b, ha, hb, rfl⟩ := h
  refine ⟨before ++ a, b ++ after, ?_, ?_, by simp⟩
  · rw [List.mem_append]
    exact not_or.mpr ⟨hbefore, ha⟩
  · rw [List.mem_append]
    exact not_or.mpr ⟨hb, hafter⟩

theorem not_mem_of_blank (h : Blank s) : ascii '$' ∉ s := fun hmem =>
  absurd (h _ hmem) (by decide)

theorem isAround_expression {expr code : JsString} (h : IsExpressionOf expr code) :
    IsAround code expr := by
  have hmarked : ∀ {str}, Marked code str → IsAround code str := by
    intro str hstr
    have hplain : IsAround code code := ⟨[], [], List.not_mem_nil, List.not_mem_nil, by simp⟩
    cases hstr with
    | plain => exact hplain
    | @marked space hspace =>
      have h := @hplain.extend _ _ (autoGeneratedMarker ++ space) [] (by
        rw [List.mem_append]
        exact not_or.mpr ⟨by decide, not_mem_of_blank hspace⟩) List.not_mem_nil
      rwa [List.append_nil, List.append_assoc] at h
  have hdelimited : ∀ {str}, Delimited code str → IsAround code str := by
    intro str hstr
    cases hstr with
    | plain hstr => exact hmarked hstr
    | braces ha hb hstr =>
      exact ((hmarked hstr).extend (not_mem_of_blank ha) (not_mem_of_blank hb)).extend
        (by decide) (by decide)
  obtain ⟨a, str, b, ha, hb, hstr, rfl | rfl⟩ := h
  · exact (hdelimited hstr).extend (not_mem_of_blank ha) (not_mem_of_blank hb)
  · have h := @((hdelimited hstr).extend (not_mem_of_blank ha) (not_mem_of_blank hb)).extend _ _
      [ascii '='] [] (by decide) List.not_mem_nil
    rwa [List.append_nil] at h

/-- **An accepted text** has one call. -/
theorem calls_of_accepted {str : JsString} (h : isFromAIOnlyExpression str = true) :
    ∃ call, calls str = [call] := by
  unfold isFromAIOnlyExpression at h
  split at h
  · cases h
  rename_i name rest hexec
  split at h
  · cases h
  rename_i remainder hwalk
  have hblank : Blank remainder := trim_eq_nil.mp (of_decide_eq_true h)
  obtain ⟨before, after, hbefore, hafter, hstr⟩ := isAround_expression
    (isExpressionOf_strip (List.append_nil (strip str)).symm Blank.nil)
  have hend : ascii '$' ∉ remainder ++ after := by
    rw [List.mem_append]
    exact not_or.mpr ⟨not_mem_of_blank hblank, hafter⟩
  -- what follows the expression does not change the call it begins with
  have hquoted := mem_quotedTails_of_walk (by simp)
    ((walk_dropWhile none _).trans (walk_append hwalk after)) hend
  have hmatches := (fromAIMatches_append hbefore (strip str ++ after)).trans
    (fromAIMatches_of_exec (execFromAI_append hexec after))
  rw [← List.append_assoc, ← hstr] at hmatches
  refine ⟨(rest ++ after).dropWhile isSpace, ?_⟩
  rw [calls, hmatches, withoutQuoted, if_neg (by simp), List.nil_append,
    withoutQuoted_eq_nil fun m hm => ⟨_, List.mem_singleton_self _, hquoted m hm⟩]

end Accepted

/-! ## What the search does -/

section Search

theorem sublist_withoutQuoted (cs found : List JsString) :
    (withoutQuoted cs found).Sublist found := by
  induction found generalizing cs with
  | nil => exact List.Sublist.slnil
  | cons m found ih =>
    rw [withoutQuoted]
    split_ifs
    · exact (ih cs).cons m
    · exact (ih _).cons_cons m

variable {ν ι : Type} (toNumber : JsString → Option ν) (jsonParse : JsString → Option ι)

/-- **The search does what it is for** exactly if a call cannot be read, or if there is no call in
quotes within another and the values of literal arguments are kept. -/
theorem extracts_iff (str : JsString) : Extracts toNumber jsonParse str ↔
    (∃ call ∈ calls str, ∃ error, readCall toNumber jsonParse call = .error error) ∨
      (calls str = fromAIMatches str ∧ ∀ call ∈ calls str, ∀ args, HasArguments call args →
        KeepsValues toNumber jsonParse args) := by
  have hsub := sublist_withoutQuoted [] (fromAIMatches str)
  constructor
  · intro h
    by_cases herror : ∃ call ∈ calls str, ∃ error, readCall toNumber jsonParse call = .error error
    · exact .inl herror
    obtain ⟨records, hrecords⟩ := exists_mapM herror
    obtain ⟨hsearch, hvalues⟩ := h.records records hrecords
    refine .inr ⟨?_, fun call hcall args hargs => ?_⟩
    · -- one record for each match, and one for each call
      have hcalls := (mapM_eq_ok_iff.mp hrecords).length_eq
      have hmatches := (mapM_eq_ok_iff.mp hsearch).length_eq
      exact hsub.eq_of_length (hcalls.trans hmatches.symm)
    · obtain ⟨i, hi, rfl⟩ := List.getElem_of_mem hcall
      obtain ⟨hlength, hread⟩ := List.forall₂_iff_get.mp (mapM_eq_ok_iff.mp hrecords)
      obtain ⟨-, hvalue⟩ := List.forall₂_iff_get.mp hvalues
      have hi' : i < records.length := hlength ▸ hi
      exact (hasValues_iff hargs.1 (hasValues_read hargs (hread i hi hi'))).mp
        (hvalue i hi hi' args hargs)
  · intro h
    have hrejects : (∃ call ∈ calls str, ∃ error, readCall toNumber jsonParse call = .error error) →
        ∃ error, extractFromAICalls toNumber jsonParse str = .error error := by
      rintro ⟨call, hcall, herror⟩
      exact exists_mapM_error ⟨call, hsub.subset hcall, herror⟩
    refine ⟨fun records hrecords => ?_, hrejects, fun haccepted => ?_⟩
    · rcases h with herror | ⟨hcalls, hkept⟩
      · obtain ⟨error, herror⟩ := exists_mapM_error herror
        rw [hrecords] at herror
        cases herror
      · refine ⟨by rw [extractFromAICalls, ← hcalls, hrecords], ?_⟩
        -- each record is read from its call
        have hmem := (List.forall₂_and_left _ _).mpr ⟨fun _ h => h, mapM_eq_ok_iff.mp hrecords⟩
        refine hmem.imp fun call record ⟨hcall, hread⟩ args hargs => ?_
        exact (hasValues_iff hargs.1 (hasValues_read hargs hread)).mpr (hkept call hcall args hargs)
    · obtain ⟨call, hcall⟩ := calls_of_accepted haccepted
      refine ⟨call, hcall, ?_⟩
      cases hread : readCall toNumber jsonParse call with
      | error error =>
        obtain ⟨error', herror'⟩ := hrejects ⟨call, hcall ▸ List.mem_singleton_self _, error, hread⟩
        exact .inr ⟨error, error', rfl, herror'⟩
      | ok record =>
        left
        refine ⟨record, ?_⟩
        rcases h with ⟨call', hcall', error, herror⟩ | ⟨hcalls, -⟩
        · rw [hcall, List.mem_singleton] at hcall'
          rw [hcall', hread] at herror
          cases herror
        · rw [extractFromAICalls, ← hcalls, hcall]
          exact mapM_eq_ok_iff.mpr (.cons hread .nil)

def mentioningCall : JsString := js "$fromAI(\"a\", \"use $fromAI(x)\")".toList

/-- The call in the description is found too. -/
theorem not_extracts : ¬ Extracts (fun _ => none : JsString → Option Unit)
    (fun _ => none : JsString → Option Unit) mentioningCall := by
  rw [extracts_iff]
  have hfirst : execFromAI mentioningCall = some (js "$fromAI".toList,
      js "\"a\", \"use $fromAI(x)\")".toList) := by decide
  have hsecond : execFromAI (js "$fromAI(x)\")".toList) = some (js "$fromAI".toList,
      js "x)\")".toList) := by decide
  have hblank : ∀ text ∈ [js "\"a\", \"use $fromAI(x)\")".toList, js "x)\")".toList],
      text.dropWhile isSpace = text := by decide
  have hmatches : fromAIMatches mentioningCall =
      [js "\"a\", \"use $fromAI(x)\")".toList, js "x)\")".toList] := by
    have hsplit : js "\"a\", \"use $fromAI(x)\")".toList =
        js "\"a\", \"use ".toList ++ js "$fromAI(x)\")".toList := by decide
    rw [fromAIMatches_of_exec hfirst, hblank _ (by decide)]
    conv_lhs => rw [hsplit]
    rw [fromAIMatches_append (by decide), fromAIMatches_of_exec hsecond, hblank _ (by decide),
      fromAIMatches_eq_nil (by decide), ← hsplit]
  have hcalls : calls mentioningCall = [js "\"a\", \"use $fromAI(x)\")".toList] := by
    rw [calls, hmatches]
    decide
  rintro (⟨call, hcall, error, herror⟩ | ⟨hsame, -⟩)
  · rw [hcalls, List.mem_singleton] at hcall
    subst hcall
    have hread : readCall (fun _ => none : JsString → Option Unit)
        (fun _ => none : JsString → Option Unit) (js "\"a\", \"use $fromAI(x)\")".toList) =
        .ok ⟨js "a".toList, some (js "use $fromAI(x)".toList), .string, none⟩ := rfl
    rw [hread] at herror
    cases herror
  · rw [hcalls, hmatches] at hsame
    exact absurd (congrArg List.length hsame) (by decide)

end Search

end N8n.FromAI
