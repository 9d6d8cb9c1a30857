import N8n.Common.JsString
import N8n.Foundations.OrderedMap
import Mathlib.Data.List.Induction

/-!
# Shadowed policy rules

A policy is an ordered list of rules that allow, deny or delegate types, by their name or by their
package; the first rule that matches a type decides. Whoever saves a policy is warned of the rules
that can never decide, because an earlier one matches whatever they match.

The lint does not enumerate types. It takes a rule to be covered by an earlier one with the same
selector, or by one that selects the package of its name. A name is never taken to cover a package,
although it does where the package has one type.

## Main definitions

* `evaluateRules`: what the rules decide for a type
* `lintRulesForShadowing`: the warnings, from one pass over the rules
* `Includes`: a rule matches whatever another one matches
* `covers`: the same, as the lint decides it

## Main results

* `lintRulesForShadowing_eq`: the pass finds for each rule the first earlier one that covers it
* `lint_correct`: rules with a warning can be removed; the rule that a warning names is the first
  that includes the shadowed one; the rules without a warning decide
* `not_earliest`: a package with one type
-/

namespace N8n.TypeAvailability

inductive PolicyAction
  | allow
  | deny
  | delegate
  deriving DecidableEq

inductive PolicySelector
  | name (value : JsString)
  | package (value : JsString)
  deriving DecidableEq

structure PolicyRule where
  id : String
  action : PolicyAction
  selector : PolicySelector
  deriving DecidableEq

/-- The rules of one policy, whose ids are distinct. -/
structure PolicyRuleList where
  rules : List PolicyRule
  nodup : (rules.map PolicyRule.id).Nodup

/-! ## Evaluation -/

/-- The package of a type, or `none` where it is not known. -/
abbrev PackageResolver := JsString → Option JsString

/-- The package of a node type is what comes before the first dot. -/
def nodeTypePackageResolver : PackageResolver := fun typeName =>
  some (typeName.takeWhile (· != ascii '.'))

def selectorMatches (selector : PolicySelector) (typeName : JsString)
    (resolvePackage : PackageResolver) : Bool :=
  match selector with
  | .name value => value = typeName
  | .package value => resolvePackage typeName = some value

structure PolicyVerdict where
  action : PolicyAction
  matchedRuleId : Option String

def firstMatch (rules : List PolicyRule) (typeName : JsString)
    (resolvePackage : PackageResolver) : Option PolicyVerdict :=
  (rules.find? fun rule => selectorMatches rule.selector typeName resolvePackage).map fun rule =>
    ⟨rule.action, some rule.id⟩

def evaluateRules (rules : List PolicyRule) (defaultAction : PolicyAction) (typeName : JsString)
    (resolvePackage : PackageResolver) : PolicyVerdict :=
  (firstMatch rules typeName resolvePackage).getD ⟨defaultAction, none⟩

/-! ## The lint -/

structure ShadowWarning where
  ruleId : String
  shadowedByRuleId : String

structure FirstOccurrence where
  rule : PolicyRule
  index : ℕ

def earlierOccurrence : Option FirstOccurrence → Option FirstOccurrence → Option FirstOccurrence
  | none, b => b
  | a, none => a
  | some a, some b => if a.index ≤ b.index then some a else some b

def resolvePackageOrUndefined (firstByPackage : OrderedMap JsString FirstOccurrence)
    (resolvePackage : PackageResolver) (typeName : JsString) : Option FirstOccurrence :=
  match resolvePackage typeName with
  | none => none
  | some packageName => firstByPackage.get? packageName

structure Lint where
  warnings : List ShadowWarning
  firstByName : OrderedMap JsString FirstOccurrence
  firstByPackage : OrderedMap JsString FirstOccurrence

def Lint.shadowedBy (lint : Lint) (resolvePackage : PackageResolver) :
    PolicySelector → Option FirstOccurrence
  | .package value => lint.firstByPackage.get? value
  | .name value => earlierOccurrence (lint.firstByName.get? value)
      (resolvePackageOrUndefined lint.firstByPackage resolvePackage value)

def setFirst (first : OrderedMap JsString FirstOccurrence) (value : JsString)
    (occurrence : FirstOccurrence) : OrderedMap JsString FirstOccurrence :=
  match first.get? value with
  | some _ => first
  | none => first.set value occurrence

def Lint.visit (resolvePackage : PackageResolver) (lint : Lint) (occurrence : FirstOccurrence) :
    Lint :=
  let rule := occurrence.rule
  let warnings := match lint.shadowedBy resolvePackage rule.selector with
    | some shadowedBy => lint.warnings ++ [⟨rule.id, shadowedBy.rule.id⟩]
    | none => lint.warnings
  match rule.selector with
  | .name value => ⟨warnings, setFirst lint.firstByName value occurrence, lint.firstByPackage⟩
  | .package value => ⟨warnings, lint.firstByName, setFirst lint.firstByPackage value occurrence⟩

def lintRulesForShadowing (rules : List PolicyRule) (resolvePackage : PackageResolver) :
    List ShadowWarning :=
  ((rules.zipIdx.map fun p => ⟨p.1, p.2⟩).foldl (Lint.visit resolvePackage)
    ⟨[], .empty, .empty⟩).warnings

/-! ## What the lint finds -/

/-- The selector of an earlier rule covers that of a later one, as far as the lint can tell. -/
def covers (resolvePackage : PackageResolver) (earlier later : PolicySelector) : Bool :=
  match later with
  | .package _ => earlier = later
  | .name value => earlier = later || (resolvePackage value).any fun p => earlier = .package p

def firstWhere (rules : List PolicyRule) (p : PolicySelector → Bool) : Option FirstOccurrence :=
  (rules.zipIdx.find? fun r => p r.1.selector).map fun r => ⟨r.1, r.2⟩

section Pass

variable {rules : List PolicyRule} {rule : PolicyRule} {p q : PolicySelector → Bool}
  {resolvePackage : PackageResolver} {lint : Lint} {first : OrderedMap JsString FirstOccurrence}
  {make : JsString → PolicySelector}

theorem firstWhere_concat : firstWhere (rules ++ [rule]) p =
    (firstWhere rules p).or (if p rule.selector then some ⟨rule, rules.length⟩ else none) := by
  unfold firstWhere
  rw [List.zipIdx_append, List.find?_append, List.zipIdx_singleton, Option.map_or,
    List.find?_singleton, zero_add]
  split_ifs <;> rfl

theorem index_firstWhere_lt {o : FirstOccurrence} (h : firstWhere rules p = some o) :
    o.index < rules.length := by
  obtain ⟨⟨rule, i⟩, hfind, rfl⟩ := Option.map_eq_some_iff.mp h
  obtain ⟨-, hlt, -⟩ := List.mem_zipIdx (List.mem_of_find?_eq_some hfind)
  simpa using hlt

/-- The earlier one of two first occurrences is the first occurrence of either. -/
theorem earlierOccurrence_firstWhere (rules : List PolicyRule) (p q : PolicySelector → Bool) :
    earlierOccurrence (firstWhere rules p) (firstWhere rules q) =
      firstWhere rules fun s => p s || q s := by
  induction rules using List.reverseRecOn with
  | nil => rfl
  | append_singleton rules rule ih =>
    rw [firstWhere_concat, firstWhere_concat, firstWhere_concat, ← ih]
    have hlt : ∀ {p : PolicySelector → Bool} {o}, firstWhere rules p = some o →
        o.index < rules.length := index_firstWhere_lt
    cases hp : firstWhere rules p with
    | none =>
      cases hq : firstWhere rules q with
      | none => cases p rule.selector <;> cases q rule.selector <;> simp [earlierOccurrence]
      | some b =>
        have hb := hlt hq
        cases p rule.selector <;> simp [earlierOccurrence]
        omega
    | some a =>
      have ha := hlt hp
      cases hq : firstWhere rules q with
      | none =>
        cases q rule.selector <;> simp [earlierOccurrence]
        omega
      | some b =>
        simp only [Option.some_or, earlierOccurrence]
        split_ifs <;> rfl

/-- What the pass knows after these rules. -/
structure Tracks (rules : List PolicyRule) (lint : Lint) : Prop where
  names : ∀ value, lint.firstByName.get? value = firstWhere rules (· = .name value)
  packages : ∀ value, lint.firstByPackage.get? value = firstWhere rules (· = .package value)

theorem Tracks.shadowedBy (h : Tracks rules lint) (selector : PolicySelector) :
    lint.shadowedBy resolvePackage selector =
      firstWhere rules fun earlier => covers resolvePackage earlier selector := by
  cases selector with
  | package value => exact h.packages value
  | name value =>
    have hpackage : resolvePackageOrUndefined lint.firstByPackage resolvePackage value =
        firstWhere rules fun s => (resolvePackage value).any fun p => s = .package p := by
      unfold resolvePackageOrUndefined
      cases resolvePackage value with
      | none =>
        symm
        rw [firstWhere, Option.map_eq_none_iff, List.find?_eq_none]
        simp
      | some p => exact h.packages p
    rw [Lint.shadowedBy, h.names, hpackage, earlierOccurrence_firstWhere]
    rfl

theorem get?_setFirst (h : ∀ value, first.get? value = firstWhere rules (· = make value))
    (hmake : Function.Injective make) {value : JsString} (hrule : rule.selector = make value)
    (value' : JsString) : (setFirst first value ⟨rule, rules.length⟩).get? value' =
      firstWhere (rules ++ [rule]) (· = make value') := by
  rw [firstWhere_concat, ← h value', hrule]
  unfold setFirst
  by_cases hvalue : value' = value
  · subst hvalue
    cases hget : first.get? value' with
    | some o =>
      dsimp only
      rw [hget, Option.some_or]
    | none =>
      dsimp only
      rw [OrderedMap.get?_set_self, Option.none_or, if_pos (decide_eq_true rfl)]
  · have hne : ¬ decide (make value = make value') = true := by
      rw [decide_eq_true_eq]
      exact fun heq => hvalue (hmake heq).symm
    rw [if_neg hne, Option.or_none]
    split
    · rfl
    · exact OrderedMap.get?_set_of_ne hvalue

theorem get?_concat (h : ∀ value, first.get? value = firstWhere rules (· = make value))
    (hrule : ∀ value, rule.selector ≠ make value) (value : JsString) :
    first.get? value = firstWhere (rules ++ [rule]) (· = make value) := by
  rw [firstWhere_concat, if_neg (by simpa using hrule value), Option.or_none, h]

theorem Tracks.visit (h : Tracks rules lint) :
    Tracks (rules ++ [rule]) (lint.visit resolvePackage ⟨rule, rules.length⟩) := by
  unfold Lint.visit
  dsimp only
  cases hrule : rule.selector with
  | name value =>
    refine ⟨get?_setFirst h.names (fun _ _ => PolicySelector.name.inj) hrule,
      get?_concat h.packages fun value' => ?_⟩
    rw [hrule]
    exact PolicySelector.noConfusion
  | package value =>
    refine ⟨get?_concat h.names fun value' => ?_,
      get?_setFirst h.packages (fun _ _ => PolicySelector.package.inj) hrule⟩
    rw [hrule]
    exact PolicySelector.noConfusion

def warningsAfter (resolvePackage : PackageResolver) (earlier : List PolicyRule) :
    List PolicyRule → List ShadowWarning
  | [] => []
  | rule :: rest =>
    ((firstWhere earlier fun s => covers resolvePackage s rule.selector).map fun o =>
      (⟨rule.id, o.rule.id⟩ : ShadowWarning)).toList ++
        warningsAfter resolvePackage (earlier ++ [rule]) rest

theorem warnings_visit (h : Tracks rules lint) :
    (lint.visit resolvePackage ⟨rule, rules.length⟩).warnings = lint.warnings ++
      ((firstWhere rules fun s => covers resolvePackage s rule.selector).map fun o =>
        (⟨rule.id, o.rule.id⟩ : ShadowWarning)).toList := by
  rw [← h.shadowedBy]
  unfold Lint.visit
  dsimp only
  cases hshadowed : lint.shadowedBy resolvePackage rule.selector <;>
    cases rule.selector <;> simp

theorem warnings_foldl (h : Tracks rules lint) (rest : List PolicyRule) :
    (((rest.zipIdx rules.length).map fun p => (⟨p.1, p.2⟩ : FirstOccurrence)).foldl
      (Lint.visit resolvePackage) lint).warnings =
        lint.warnings ++ warningsAfter resolvePackage rules rest := by
  induction rest generalizing rules lint with
  | nil => exact (List.append_nil _).symm
  | cons rule rest ih =>
    have hnext := ih (@Tracks.visit rules rule resolvePackage lint h)
    rw [List.length_append, List.length_singleton] at hnext
    rw [List.zipIdx_cons, List.map_cons, List.foldl_cons, hnext, warnings_visit h, warningsAfter,
      List.append_assoc]

/-- **The pass** finds for each rule the first earlier one that covers it. -/
theorem lintRulesForShadowing_eq (rules : List PolicyRule) (resolvePackage : PackageResolver) :
    lintRulesForShadowing rules resolvePackage = warningsAfter resolvePackage [] rules := by
  have hempty : Tracks [] ⟨[], .empty, .empty⟩ := ⟨fun _ => rfl, fun _ => rfl⟩
  exact (warnings_foldl hempty rules).trans (List.nil_append _)

theorem mem_warningsAfter {earlier rest : List PolicyRule} {warning : ShadowWarning} :
    warning ∈ warningsAfter resolvePackage earlier rest ↔ ∃ i rule o, rest[i]? = some rule ∧
      firstWhere (earlier ++ rest.take i) (covers resolvePackage · rule.selector) = some o ∧
        warning = ⟨rule.id, o.rule.id⟩ := by
  induction rest generalizing earlier with
  | nil => simp [warningsAfter]
  | cons rule rest ih =>
    rw [warningsAfter, List.mem_append, ih, Option.mem_toList, Option.map_eq_some_iff]
    constructor
    · rintro (⟨o, ho, rfl⟩ | ⟨i, rule', o, hrule', ho, rfl⟩)
      · exact ⟨0, rule, o, rfl, by rwa [List.take_zero, List.append_nil], rfl⟩
      · refine ⟨i + 1, rule', o, hrule', ?_, rfl⟩
        rwa [List.take_succ_cons, List.append_cons]
    · rintro ⟨i, rule', o, hrule', ho, rfl⟩
      cases i with
      | zero =>
        cases hrule'
        rw [List.take_zero, List.append_nil] at ho
        exact .inl ⟨o, ho, rfl⟩
      | succ i =>
        rw [List.take_succ_cons, List.append_cons] at ho
        exact .inr ⟨i, rule', o, hrule', ho, rfl⟩

theorem of_firstWhere {o : FirstOccurrence} (h : firstWhere rules p = some o) :
    rules[o.index]? = some o.rule ∧ p o.rule.selector = true ∧
      ∀ k < o.index, ∀ u, rules[k]? = some u → p u.selector = false := by
  induction rules using List.reverseRecOn with
  | nil => cases h
  | append_singleton rules rule ih =>
    rw [firstWhere_concat] at h
    cases hfirst : firstWhere rules p with
    | some o' =>
      rw [hfirst, Option.some_or] at h
      cases h
      obtain ⟨hget, hp, hbefore⟩ := ih hfirst
      have hlt := index_firstWhere_lt hfirst
      refine ⟨by rwa [List.getElem?_append_left hlt], hp, fun k hk u hu => hbefore k hk u ?_⟩
      rwa [List.getElem?_append_left (hk.trans hlt)] at hu
    | none =>
      rw [hfirst, Option.none_or] at h
      split_ifs at h with hp
      cases h
      refine ⟨List.getElem?_concat_length, hp, fun k hk u hu => ?_⟩
      -- no rule before this one has the property
      rw [List.getElem?_append_left hk] at hu
      rw [firstWhere, Option.map_eq_none_iff, List.find?_eq_none] at hfirst
      exact Bool.eq_false_iff.mpr (hfirst (u, k) (List.mem_zipIdx_iff_getElem?.mpr hu))

theorem firstWhere_eq_none (h : firstWhere rules p = none) : ∀ u ∈ rules, p u.selector = false := by
  intro u hu
  obtain ⟨k, hk, rfl⟩ := List.getElem_of_mem hu
  rw [firstWhere, Option.map_eq_none_iff, List.find?_eq_none] at h
  exact Bool.eq_false_iff.mpr
    (h (rules[k], k) (List.mem_zipIdx_iff_getElem?.mpr (List.getElem?_eq_getElem hk)))

end Pass

/-! ## Inclusion -/

def Includes (resolvePackage : PackageResolver) (earlier later : PolicyRule) : Prop :=
  ∀ typeName, selectorMatches later.selector typeName resolvePackage = true →
    selectorMatches earlier.selector typeName resolvePackage = true

def HasSeveralTypes (resolvePackage : PackageResolver) : PolicySelector → Prop
  | .name _ => True
  | .package value => ∃ t t', t ≠ t' ∧ resolvePackage t = some value ∧
      resolvePackage t' = some value

section Inclusion

variable {resolvePackage : PackageResolver} {earlier later : PolicyRule}

theorem includes_of_covers (h : covers resolvePackage earlier.selector later.selector = true) :
    Includes resolvePackage earlier later := by
  intro typeName hmatches
  unfold covers at h
  cases hlater : later.selector with
  | package value =>
    rw [hlater] at h hmatches
    rwa [of_decide_eq_true h]
  | name value =>
    rw [hlater] at h hmatches
    obtain rfl : value = typeName := of_decide_eq_true hmatches
    rcases Bool.or_eq_true_iff.mp h with heq | hpackage
    · rwa [of_decide_eq_true heq]
    · obtain ⟨p, hp, heq⟩ := Option.any_eq_true _ _ |>.mp hpackage
      rw [of_decide_eq_true heq]
      exact decide_eq_true hp

theorem covers_of_includes (hseveral : HasSeveralTypes resolvePackage later.selector)
    (h : Includes resolvePackage earlier later) :
    covers resolvePackage earlier.selector later.selector = true := by
  unfold Includes at h
  unfold covers
  cases hlater : later.selector with
  | package value =>
    rw [hlater] at h hseveral
    obtain ⟨t, t', hne, ht, ht'⟩ := hseveral
    have hmatch := h t (decide_eq_true ht)
    have hmatch' := h t' (decide_eq_true ht')
    cases hearlier : earlier.selector with
    | name value' =>
      rw [hearlier] at hmatch hmatch'
      exact absurd ((of_decide_eq_true hmatch).symm.trans (of_decide_eq_true hmatch')) hne
    | package value' =>
      rw [hearlier] at hmatch
      obtain rfl := Option.some.inj (ht.symm.trans (of_decide_eq_true hmatch))
      exact decide_eq_true rfl
  | name value =>
    rw [hlater] at h
    have hmatch := h value (decide_eq_true rfl)
    cases hearlier : earlier.selector with
    | name value' =>
      rw [hearlier] at hmatch
      obtain rfl : value' = value := of_decide_eq_true hmatch
      exact Bool.or_eq_true_iff.mpr (.inl (decide_eq_true rfl))
    | package value' =>
      rw [hearlier] at hmatch
      have hpackage : resolvePackage value = some value' := of_decide_eq_true hmatch
      refine Bool.or_eq_true_iff.mpr (.inr ?_)
      rw [hpackage]
      exact decide_eq_true rfl

end Inclusion

/-! ## What the warnings are good for -/

def withoutShadowed (rules : List PolicyRule) (resolvePackage : PackageResolver) :
    List PolicyRule :=
  rules.filter fun rule =>
    rule.id ∉ (lintRulesForShadowing rules resolvePackage).map ShadowWarning.ruleId

def NamesEarliest (rules : List PolicyRule) (resolvePackage : PackageResolver)
    (several : PolicySelector → Prop) (warning : ShadowWarning) : Prop :=
  ∃ (i j : ℕ) (rule shadowing : PolicyRule),
    rules[i]? = some rule ∧ rules[j]? = some shadowing ∧ j < i ∧
      rule.id = warning.ruleId ∧ shadowing.id = warning.shadowedByRuleId ∧
      Includes resolvePackage shadowing rule ∧
      (several rule.selector → ∀ k < j, ∀ u, rules[k]? = some u → ¬ Includes resolvePackage u rule)

/-- The rule is the first match of some type. -/
def Decides (rules : List PolicyRule) (resolvePackage : PackageResolver) (rule : PolicyRule) :
    Prop :=
  ∃ typeName, rules.find? (fun rule => selectorMatches rule.selector typeName resolvePackage) =
    some rule

/-- What the lint is for. Of the shadowing rules the first is named where `several` holds. -/
structure LintCorrect (list : PolicyRuleList) (resolvePackage : PackageResolver)
    (several : PolicySelector → Prop) : Prop where
  unchanged : ∀ defaultAction typeName,
    evaluateRules (withoutShadowed list.rules resolvePackage) defaultAction typeName
      resolvePackage = evaluateRules list.rules defaultAction typeName resolvePackage
  named : ∀ warning ∈ lintRulesForShadowing list.rules resolvePackage,
    NamesEarliest list.rules resolvePackage several warning
  decides : resolvePackage = nodeTypePackageResolver →
    ∀ rule ∈ withoutShadowed list.rules resolvePackage,
      (∀ value, rule.selector = .package value → ascii '.' ∉ value) →
        Decides list.rules resolvePackage rule

section Warnings

variable {rules : List PolicyRule} {resolvePackage : PackageResolver} {rule : PolicyRule} {i : ℕ}

theorem mem_warned_iff (hnodup : (rules.map PolicyRule.id).Nodup) (hrule : rules[i]? = some rule) :
    rule.id ∈ (lintRulesForShadowing rules resolvePackage).map ShadowWarning.ruleId ↔
      ∃ o, firstWhere (rules.take i) (covers resolvePackage · rule.selector) = some o := by
  rw [lintRulesForShadowing_eq, List.mem_map]
  constructor
  · rintro ⟨warning, hwarning, hid⟩
    obtain ⟨k, rule', o, hrule', ho, rfl⟩ := mem_warningsAfter.mp hwarning
    -- the ids are distinct, so the warning is about this place
    have hlt : k < (rules.map PolicyRule.id).length := by
      rw [List.length_map]
      exact (List.getElem?_eq_some_iff.mp hrule').1
    have hplace : k = i := by
      refine (List.getElem?_inj hlt hnodup).mp ?_
      rw [List.getElem?_map, List.getElem?_map, hrule, hrule']
      exact congrArg some hid
    subst hplace
    obtain rfl := Option.some.inj (hrule'.symm.trans hrule)
    exact ⟨o, ho⟩
  · rintro ⟨o, ho⟩
    exact ⟨_, mem_warningsAfter.mpr ⟨i, rule, o, hrule, ho, rfl⟩, rfl⟩

theorem mem_withoutShadowed_iff : rule ∈ withoutShadowed rules resolvePackage ↔ rule ∈ rules ∧
    rule.id ∉ (lintRulesForShadowing rules resolvePackage).map ShadowWarning.ruleId := by
  rw [withoutShadowed, List.mem_filter, decide_eq_true_eq]

theorem find?_filter_of_kept {α : Type} {l : List α} {p keep : α → Bool}
    (h : ∀ a, l.find? p = some a → keep a = true) : (l.filter keep).find? p = l.find? p := by
  induction l with
  | nil => rfl
  | cons a l ih =>
    cases hp : p a with
    | true =>
      rw [List.filter_cons_of_pos (h a (List.find?_cons_of_pos hp)), List.find?_cons_of_pos hp,
        List.find?_cons_of_pos hp]
    | false =>
      have hne : ¬ p a = true := by simp [hp]
      rw [List.find?_cons_of_neg hne] at h ⊢
      rw [List.filter_cons]
      split_ifs
      · rw [List.find?_cons_of_neg hne, ih h]
      · exact ih h

theorem not_mem_warned (hnodup : (rules.map PolicyRule.id).Nodup) {typeName : JsString}
    (h : rules.find? (fun rule => selectorMatches rule.selector typeName resolvePackage) =
      some rule) :
    rule.id ∉ (lintRulesForShadowing rules resolvePackage).map ShadowWarning.ruleId := by
  obtain ⟨hmatches, before, after, rfl, hbefore⟩ := List.find?_eq_some_iff_append.mp h
  have hrule : (before ++ rule :: after)[before.length]? = some rule := by simp
  rw [mem_warned_iff hnodup hrule, List.take_left]
  rintro ⟨o, ho⟩
  obtain ⟨hget, hcovers, -⟩ := of_firstWhere ho
  have hmatch := includes_of_covers hcovers typeName hmatches
  have hnot := hbefore _ (List.mem_of_getElem? hget)
  rw [hmatch] at hnot
  cases hnot

theorem exists_fresh_type (earlier : List PolicyRule) {value : JsString}
    (hdot : ascii '.' ∉ value) : ∃ typeName, nodeTypePackageResolver typeName = some value ∧
      ∀ u ∈ earlier, u.selector ≠ .name typeName := by
  have hbound : ∃ n : ℕ, ∀ u ∈ earlier, ∀ name, u.selector = .name name → name.length < n := by
    induction earlier with
    | nil => exact ⟨0, fun u hu => absurd hu List.not_mem_nil⟩
    | cons u earlier ih =>
      obtain ⟨n, hn⟩ := ih
      cases hu : u.selector with
      | package p =>
        refine ⟨n, List.forall_mem_cons.mpr ⟨fun name hname => ?_, hn⟩⟩
        rw [hu] at hname
        cases hname
      | name p =>
        refine ⟨max n (p.length + 1), List.forall_mem_cons.mpr ⟨fun name hname => ?_, ?_⟩⟩
        · rw [hu] at hname
          obtain rfl := PolicySelector.name.inj hname
          exact (Nat.lt_succ_self _).trans_le (Nat.le_max_right _ _)
        · exact fun u' hu' name hname => (hn u' hu' name hname).trans_le (Nat.le_max_left _ _)
  obtain ⟨n, hn⟩ := hbound
  refine ⟨value ++ ascii '.' :: List.replicate n (ascii 'x'), ?_, fun u hu hname => ?_⟩
  · have hpass : ∀ c ∈ value, (c != ascii '.') = true := fun c hc =>
      bne_iff_ne.mpr fun heq => hdot (heq ▸ hc)
    rw [nodeTypePackageResolver, List.takeWhile_append_of_pos hpass,
      List.takeWhile_cons_of_neg (by simp), List.append_nil]
  · have hlt := hn u hu _ hname
    rw [List.length_append, List.length_cons, List.length_replicate] at hlt
    omega

end Warnings

/-- **The lint is correct**: the rules that it warns of can be removed, it names the first rule that
includes the shadowed one wherever the package of that one has two types, and the other rules each
decide some node type. -/
theorem lint_correct (list : PolicyRuleList) (resolvePackage : PackageResolver) :
    LintCorrect list resolvePackage (HasSeveralTypes resolvePackage) := by
  obtain ⟨rules, hnodup⟩ := list
  refine ⟨fun defaultAction typeName => ?_, fun warning hwarning => ?_, ?_⟩
  · have hsame : firstMatch (withoutShadowed rules resolvePackage) typeName resolvePackage =
        firstMatch rules typeName resolvePackage := by
      unfold firstMatch withoutShadowed
      rw [find?_filter_of_kept]
      exact fun rule hrule => decide_eq_true (not_mem_warned hnodup hrule)
    rw [evaluateRules, hsame, evaluateRules]
  · rw [lintRulesForShadowing_eq] at hwarning
    obtain ⟨i, rule, o, hrule, ho, rfl⟩ := mem_warningsAfter.mp hwarning
    rw [List.nil_append] at ho
    obtain ⟨hget, hcovers, hbefore⟩ := of_firstWhere ho
    have hlt : o.index < i :=
      (index_firstWhere_lt ho).trans_le ((List.length_take_le i rules))
    have htake : ∀ {k}, k < i → (rules.take i)[k]? = rules[k]? := List.getElem?_take_of_lt
    rw [htake hlt] at hget
    refine ⟨i, o.index, rule, o.rule, hrule, hget, hlt, rfl, rfl, includes_of_covers hcovers,
      fun hseveral k hk u hu hincludes => ?_⟩
    have hnot := hbefore k hk u ((htake (hk.trans hlt)).trans hu)
    rw [covers_of_includes hseveral hincludes] at hnot
    cases hnot
  · rintro rfl rule hrule hdot
    obtain ⟨hmem, hwarned⟩ := mem_withoutShadowed_iff.mp hrule
    obtain ⟨before, after, rfl⟩ := List.append_of_mem hmem
    have hget : (before ++ rule :: after)[before.length]? = some rule := by simp
    rw [mem_warned_iff hnodup hget, List.take_left, not_exists] at hwarned
    have hnone := firstWhere_eq_none (Option.eq_none_iff_forall_ne_some.mpr hwarned)
    -- a type that the rule matches and no earlier one
    suffices hfresh : ∃ typeName,
        selectorMatches rule.selector typeName nodeTypePackageResolver = true ∧
          ∀ u ∈ before, selectorMatches u.selector typeName nodeTypePackageResolver = false by
      obtain ⟨typeName, hmatches, hearlier⟩ := hfresh
      refine ⟨typeName, List.find?_eq_some_iff_append.mpr ⟨hmatches, before, after, rfl, ?_⟩⟩
      intro u hu
      rw [hearlier u hu]
      rfl
    cases hrule : rule.selector with
    | name value =>
      refine ⟨value, decide_eq_true rfl, fun u hu => ?_⟩
      have hincludes : selectorMatches u.selector value nodeTypePackageResolver = true →
          Includes nodeTypePackageResolver u rule := by
        intro hmatches typeName hname
        rw [hrule] at hname
        rwa [← of_decide_eq_true hname]
      by_contra hmatches
      have hcovers := covers_of_includes (by rw [hrule]; exact trivial)
        (hincludes (Bool.not_eq_false _ ▸ hmatches))
      rw [hnone u hu] at hcovers
      cases hcovers
    | package value =>
      obtain ⟨typeName, hresolve, hfresh⟩ := exists_fresh_type before (hdot value hrule)
      refine ⟨typeName, decide_eq_true hresolve, fun u hu => ?_⟩
      have hcovers := hnone u hu
      rw [hrule] at hcovers
      cases hu' : u.selector with
      | name value' =>
        refine decide_eq_false fun heq => hfresh u hu ?_
        rw [hu', heq]
      | package value' =>
        refine decide_eq_false fun heq => ?_
        obtain rfl := Option.some.inj (hresolve.symm.trans heq)
        rw [hu'] at hcovers
        exact absurd rfl (of_decide_eq_false hcovers)

/-- A credential, its package, and the package again. -/
def singleCredential : PolicyRuleList where
  rules := [⟨"credential", .allow, .name (js "slackApi".toList)⟩,
    ⟨"package", .deny, .package (js "slack".toList)⟩,
    ⟨"again", .allow, .package (js "slack".toList)⟩]
  nodup := by decide

def singleCredentialResolver : PackageResolver := fun typeName =>
  if typeName = js "slackApi".toList then some (js "slack".toList) else none

/-- The warning names the second rule, and the first one includes the shadowed rule too. -/
theorem not_earliest :
    ¬ LintCorrect singleCredential singleCredentialResolver (fun _ => True) := by
  intro h
  have hwarnings : lintRulesForShadowing singleCredential.rules singleCredentialResolver =
      [⟨"again", "package"⟩] := by
    rw [lintRulesForShadowing_eq]
    rfl
  obtain ⟨i, j, rule, shadowing, hrule, hshadowing, -, hid, hid', -, hfirst⟩ :=
    h.named ⟨"again", "package"⟩ (hwarnings ▸ List.mem_singleton_self _)
  have hj : 0 < j := by
    rw [Nat.pos_iff_ne_zero]
    rintro rfl
    cases hshadowing
    exact absurd hid' (by decide)
  have hselector : rule.selector = .package (js "slack".toList) := by
    have hmem := List.mem_of_getElem? hrule
    simp only [singleCredential, List.mem_cons, List.not_mem_nil, or_false] at hmem
    rcases hmem with rfl | rfl | rfl
    · exact absurd hid (by decide)
    · rfl
    · rfl
  refine hfirst trivial 0 hj _ rfl fun typeName hmatches => ?_
  rw [hselector] at hmatches
  have hpackage : singleCredentialResolver typeName = some (js "slack".toList) :=
    of_decide_eq_true hmatches
  unfold singleCredentialResolver at hpackage
  split_ifs at hpackage with hname
  exact decide_eq_true hname.symm

end N8n.TypeAvailability
