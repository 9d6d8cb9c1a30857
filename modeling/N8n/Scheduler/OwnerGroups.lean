import Mathlib.Data.List.MinMax
import Mathlib.Data.List.Nodup
import Mathlib.Data.Prod.Lex
import Std.Data.String.ToNat
import N8n.Foundations.Delimited
import N8n.Scheduler.Materializer

/-!
# Owner groups

Under the policy `coalesceOwner` the jobs of one owner share a single catch-up run. The group of a
job is named by a key made of the three owner columns, each part under its own length, and the run
that is kept is the latest one, among equals the one of the lowest job id.

## Main definitions

* `ScheduledJobOwner`, `ownerKeyFor`: the owner columns, and the key of the group
* `withOwnerKeys`: the claimed jobs, with their keys
* `GoesBefore`: which of two catch-up runs is kept
* `Settles`: what the policy may change of a planned job

## Main results

* `ownerKeyFor_injective`: the key tells every two owners apart
* `isLoser_iff`: a job loses its catch-up run to one that goes before it, wherever either stands
* `applyCoalesceOwnerPolicy_keeps_one`: the policy keeps one catch-up run for each owner
-/

namespace N8n.Scheduler

open Failure

/-! ## Keys -/

@[ext] structure ScheduledJobOwner where
  ownerType : String
  ownerId : String
  ownerMemberId : Option String
  deriving DecidableEq

def codeUnits (c : Char) : ℕ := if c.val ≤ 0xFFFF then 1 else 2

/-- `text.length` -/
def utf16Length (text : String) : ℕ := (text.toList.map codeUnits).sum

def lengthPrefixed : Option String → String
  | none => "-:"
  | some part => (utf16Length part).repr ++ ":" ++ part

def ownerKeyFor (job : ScheduledJobOwner) : String :=
  lengthPrefixed (some job.ownerType) ++ lengthPrefixed (some job.ownerId) ++
    lengthPrefixed job.ownerMemberId

/-- The claimed rows, each with the key of its owner columns. -/
def withOwnerKeys (owner : ℕ → ScheduledJobOwner) (claimed : DueJobs) : DueJobs :=
  { claimed with
    jobs := claimed.jobs.map fun job => { job with ownerKey := ownerKeyFor (owner job.id) } }

theorem codeUnits_pos (c : Char) : 0 < codeUnits c := by
  unfold codeUnits
  split <;> omega

/-- The text before the colon of a part. -/
def lengthMark : Option String → List Char
  | none => ['-']
  | some part => Nat.toDigits 10 (utf16Length part)

theorem toList_lengthPrefixed (part : Option String) :
    (lengthPrefixed part).toList = lengthMark part ++ ':' :: (part.getD "").toList := by
  cases part with
  | none => rfl
  | some part => simp [lengthPrefixed, lengthMark]

theorem colon_not_mem_lengthMark (part : Option String) : ':' ∉ lengthMark part := by
  cases part with
  | none => decide
  | some part =>
    intro hm
    have := Nat.isDigit_of_mem_toDigits (by decide) (by decide) hm
    revert this
    decide

theorem lengthMark_eq {a b : Option String} (h : lengthMark a = lengthMark b) :
    a.isSome = b.isSome ∧ utf16Length (a.getD "") = utf16Length (b.getD "") := by
  have hdash (part : String) : lengthMark (some part) ≠ lengthMark none := by
    intro h
    have hm : '-' ∈ lengthMark (some part) := by
      rw [h]
      exact List.mem_singleton_self _
    have := Nat.isDigit_of_mem_toDigits (by decide) (by decide) hm
    revert this
    decide
  match a, b with
  | none, none => exact ⟨rfl, rfl⟩
  | none, some b => exact absurd h.symm (hdash b)
  | some a, none => exact absurd h (hdash a)
  | some a, some b =>
    refine ⟨rfl, Nat.repr_injective ?_⟩
    apply String.toList_inj.mp
    rw [Nat.toList_repr, Nat.toList_repr]
    exact h

/-- **A part under its length is read back**, whatever characters it has. -/
theorem lengthPrefixed_append_inj {a b : Option String} {x y : String}
    (h : lengthPrefixed a ++ x = lengthPrefixed b ++ y) : a = b ∧ x = y := by
  have hlist := congrArg String.toList h
  rw [String.toList_append, String.toList_append, toList_lengthPrefixed, toList_lengthPrefixed,
    List.append_assoc, List.append_assoc, List.cons_append, List.cons_append] at hlist
  obtain ⟨hmark, hrest⟩ :=
    Delimited.eq_of_append_separator (colon_not_mem_lengthMark a) (colon_not_mem_lengthMark b) hlist
  obtain ⟨hsome, hunits⟩ := lengthMark_eq hmark
  obtain ⟨hpart, hxy⟩ := Delimited.eq_of_append_weight codeUnits_pos hrest hunits
  refine ⟨?_, String.toList_inj.mp hxy⟩
  match a, b with
  | none, none => rfl
  | none, some b => cases hsome
  | some a, none => cases hsome
  | some a, some b => exact congrArg some (String.toList_inj.mp hpart)

theorem ownerKeyFor_injective : Function.Injective ownerKeyFor := by
  intro a b h
  unfold ownerKeyFor at h
  rw [String.append_assoc, String.append_assoc] at h
  obtain ⟨htype, h⟩ := lengthPrefixed_append_inj h
  obtain ⟨hid, h⟩ := lengthPrefixed_append_inj h
  -- nothing follows the last part
  rw [← String.append_empty (s := lengthPrefixed a.ownerMemberId),
    ← String.append_empty (s := lengthPrefixed b.ownerMemberId)] at h
  obtain ⟨hmember, -⟩ := lengthPrefixed_append_inj h
  exact ScheduledJobOwner.ext (Option.some.inj htype) (Option.some.inj hid) hmember

/-! ## Winners -/

/-- Of two catch-up runs the first is kept: it is later, or at the same instant and of the lower
job id. -/
def GoesBefore (a b : PlannedJob × ℤ) : Prop :=
  b.2 < a.2 ∨ b.2 = a.2 ∧ a.1.job.id < b.1.job.id

/-- The order of the catch-up runs, the one to keep last. -/
def rank (member : PlannedJob × ℤ) : ℤ ×ₗ ℕᵒᵈ :=
  toLex (member.2, OrderDual.toDual member.1.job.id)

theorem rank_lt_rank (a b : PlannedJob × ℤ) : rank b < rank a ↔ GoesBefore a b := by
  unfold rank
  rw [Prod.Lex.toLex_lt_toLex, OrderDual.toDual_lt_toDual]
  rfl

theorem latestThenLowestId_eq (current candidate : PlannedJob × ℤ) :
    latestThenLowestId current candidate =
      if rank current < rank candidate then candidate else current := by
  simp only [rank_lt_rank, GoesBefore, latestThenLowestId]
  by_cases heq : candidate.2 = current.2
  · simp [heq]
  · by_cases hlt : current.2 < candidate.2
    · simp [heq, hlt]
    · simp [heq, hlt, Ne.symm heq]

/-- The reduction leaves a member of the highest rank. -/
theorem foldl_latestThenLowestId (member : PlannedJob × ℤ) (members : List (PlannedJob × ℤ)) :
    (member :: members).argmax rank = some (members.foldl latestThenLowestId member) := by
  induction members using List.reverseRecOn with
  | nil => rfl
  | append_singleton members candidate ih =>
    rw [← List.cons_append, List.argmax_concat, ih, List.foldl_append, List.foldl_cons,
      List.foldl_nil, latestThenLowestId_eq]
    exact (apply_ite some _ _ _).symm

theorem mem_membersOfOwner {planned : List PlannedJob} {ownerKey : String} {entry : PlannedJob}
    {at' : ℤ} : (entry, at') ∈ membersOfOwner planned ownerKey ↔
      entry ∈ planned ∧ entry.job.ownerKey = ownerKey ∧ ownedCatchUp entry = some at' := by
  unfold membersOfOwner
  rw [List.mem_filterMap]
  constructor
  · rintro ⟨e, he, h⟩
    split at h
    case isTrue hkey =>
      obtain ⟨c, hc, hpair⟩ := Option.map_eq_some_iff.mp h
      cases hpair
      exact ⟨he, hkey, hc⟩
    case isFalse => cases h
  · rintro ⟨he, rfl, hc⟩
    refine ⟨entry, he, ?_⟩
    rw [if_pos rfl, hc]
    rfl

/-- Rows of a table have different ids. -/
def DistinctIds (planned : List PlannedJob) : Prop := (planned.map (·.job.id)).Nodup

theorem DistinctIds.eq {planned : List PlannedJob} (hids : DistinctIds planned)
    {a b : PlannedJob} (ha : a ∈ planned) (hb : b ∈ planned) (h : a.job.id = b.job.id) : a = b :=
  List.inj_on_of_nodup_map hids ha hb h

/-- **A job loses its catch-up run** to a run of its group that goes before its own, whatever the
order of the jobs. -/
theorem isLoser_iff {planned : List PlannedJob} (hids : DistinctIds planned) {entry : PlannedJob}
    (hentry : entry ∈ planned) :
    isLoser planned entry ↔ ∃ c, ownedCatchUp entry = some c ∧
      ∃ rival ∈ membersOfOwner planned entry.job.ownerKey, GoesBefore rival (entry, c) := by
  unfold isLoser
  cases hc : ownedCatchUp entry with
  | none => simp
  | some c =>
    have hmem : (entry, c) ∈ membersOfOwner planned entry.job.ownerKey :=
      mem_membersOfOwner.mpr ⟨hentry, rfl, hc⟩
    cases hmembers : membersOfOwner planned entry.job.ownerKey with
    | nil =>
      rw [hmembers] at hmem
      exact absurd hmem List.not_mem_nil
    | cons member members =>
      have hbest := foldl_latestThenLowestId member members
      generalize hwinner : members.foldl latestThenLowestId member = winner at hbest
      obtain ⟨w, at'⟩ := winner
      rw [hmembers] at hmem
      have hw := List.argmax_mem hbest
      obtain ⟨hwin, hkey, hwc⟩ := mem_membersOfOwner.mp (hmembers ▸ hw)
      simp only [hwinner, decide_eq_true_eq, Option.some.injEq, exists_eq_left']
      constructor
      · intro hne
        refine ⟨_, hw, (rank_lt_rank _ _).mp (lt_of_le_of_ne (List.le_of_mem_argmax hmem hbest) ?_)⟩
        intro heq
        have hids := (Prod.mk.inj (toLex_inj.mp heq)).2
        exact hne (OrderDual.toDual_inj.mp hids).symm
      · rintro ⟨rival, hrival, hbefore⟩ heq
        -- the winner would be the job itself, which the rival goes before
        obtain rfl := hids.eq hwin hentry heq
        obtain rfl := Option.some.inj (hc.symm.trans hwc)
        exact absurd ((rank_lt_rank _ _).mpr hbefore)
          (not_lt_of_ge (List.le_of_mem_argmax hrival hbest))

/-! ## What the policy leaves -/

def OccurrencePlan.CatchUpFirst (plan : OccurrencePlan) : Prop :=
  ∀ c, plan.catchUpAt = some c → plan.occurrences.head? = some c

theorem applyMisfirePolicy_catchUpFirst {due : List ℤ} {now : ℤ} {job : ScheduledJob}
    {truncated : Bool} {occurrences : List ℤ} {catchUpAt : Option ℤ}
    (h : applyMisfirePolicy due now job truncated = .ok (occurrences, catchUpAt)) (c : ℤ)
    (hc : catchUpAt = some c) : occurrences.head? = some c := by
  subst hc
  unfold applyMisfirePolicy at h
  dsimp only at h
  split at h
  case h_1 => cases h
  case h_2 =>
    split at h
    case isTrue => cases h
    case isFalse =>
      split at h
      case h_1 | h_2 =>
        split at h
        case isTrue => cases h
        case isFalse =>
          obtain ⟨rfl, hc⟩ := Prod.mk.inj (Except.ok.inj h)
          exact hc
      case h_3 => cases h
      case h_4 => cases h

theorem planOrDeferJob_catchUpFirst (calendar : Calendar) (job : ScheduledJob) (now : ℤ)
    (options : MaterializerOptions) :
    (planOrDeferJob calendar job now options).1.plan.CatchUpFirst := by
  intro c hc
  unfold planOrDeferJob at hc ⊢
  cases hplan : planOccurrences calendar job now options with
  | error _ =>
    rw [hplan] at hc
    cases hc
  | ok plan =>
    rw [hplan] at hc
    dsimp only at hc ⊢
    unfold planOccurrences at hplan
    obtain ⟨schedule, -, hplan⟩ := bind_eq_ok.mp hplan
    split at hplan
    case h_1 =>
      cases hplan
      cases hc
    case h_2 =>
      obtain ⟨due, -, hplan⟩ := bind_eq_ok.mp hplan
      obtain ⟨kept, hkept, hplan⟩ := bind_eq_ok.mp hplan
      cases hplan
      exact applyMisfirePolicy_catchUpFirst hkept c hc

/-- What the policy may change of a planned job: a coalescing job may lose its catch-up run. -/
def Settles (before after : PlannedJob) : Prop :=
  after.job = before.job ∧ after.plan.nextRunAt = before.plan.nextRunAt ∧
    after.plan.lastFiredAt = before.plan.lastFiredAt ∧
    after.plan.retireBefore = before.plan.retireBefore ∧
    after.plan.skippedOccurrences = before.plan.skippedOccurrences ∧
    (after = before ∨ ∃ c, ownedCatchUp before = some c ∧ after.plan.catchUpAt = none ∧
      before.plan.occurrences = c :: after.plan.occurrences)

theorem ownedCatchUp_eq_some {entry : PlannedJob} {c : ℤ} : ownedCatchUp entry = some c ↔
    entry.job.misfirePolicy = .coalesceOwner ∧ entry.plan.catchUpAt = some c := by
  unfold ownedCatchUp
  split <;> simp_all

@[simp] theorem ownedCatchUp_dropLateRun (entry : PlannedJob) :
    ownedCatchUp (dropLateRun entry) = none := by
  unfold ownedCatchUp dropLateRun
  split <;> rfl

def settle (planned : List PlannedJob) (entry : PlannedJob) : PlannedJob :=
  if isLoser planned entry then dropLateRun entry else entry

theorem applyCoalesceOwnerPolicy_eq (planned : List PlannedJob) :
    applyCoalesceOwnerPolicy planned = planned.map (settle planned) := rfl

theorem settle_job (planned : List PlannedJob) (entry : PlannedJob) :
    (settle planned entry).job = entry.job := by
  unfold settle
  split <;> rfl

theorem settles_settle {planned : List PlannedJob} (hids : DistinctIds planned)
    {entry : PlannedJob} (hentry : entry ∈ planned) (hplan : entry.plan.CatchUpFirst) :
    Settles entry (settle planned entry) := by
  unfold settle
  split
  case isTrue hlost =>
    obtain ⟨c, hc, -⟩ := (isLoser_iff hids hentry).mp hlost
    refine ⟨rfl, rfl, rfl, rfl, rfl, .inr ⟨c, hc, rfl, ?_⟩⟩
    obtain ⟨rest, hrest⟩ := List.head?_eq_some_iff.mp (hplan c (ownedCatchUp_eq_some.mp hc).2)
    rw [hrest, dropLateRun, hrest]
    rfl
  case isFalse => exact ⟨rfl, rfl, rfl, rfl, rfl, .inl rfl⟩

def catchingUp (owner : ℕ → ScheduledJobOwner) (planned : List PlannedJob)
    (o : ScheduledJobOwner) : List PlannedJob :=
  planned.filter fun entry => owner entry.job.id = o ∧ (ownedCatchUp entry).isSome

/-- The entry has the catch-up run that goes before those of all other jobs of its owner. -/
def Wins (owner : ℕ → ScheduledJobOwner) (planned : List PlannedJob) (winner : PlannedJob)
    (c : ℤ) : Prop :=
  winner ∈ planned ∧ ownedCatchUp winner = some c ∧
    ∀ other ∈ planned, owner other.job.id = owner winner.job.id → other ≠ winner →
      ∀ c', ownedCatchUp other = some c' → GoesBefore (winner, c) (other, c')

theorem exists_wins {owner : ℕ → ScheduledJobOwner} {planned : List PlannedJob}
    (hids : DistinctIds planned)
    (hkeys : ∀ entry ∈ planned, entry.job.ownerKey = ownerKeyFor (owner entry.job.id))
    {entry : PlannedJob} (hentry : entry ∈ planned) {c : ℤ} (hc : ownedCatchUp entry = some c) :
    ∃ winner c, Wins owner planned winner c ∧ owner winner.job.id = owner entry.job.id := by
  have hmem : (entry, c) ∈ membersOfOwner planned entry.job.ownerKey :=
    mem_membersOfOwner.mpr ⟨hentry, rfl, hc⟩
  cases hbest : (membersOfOwner planned entry.job.ownerKey).argmax rank with
  | none =>
    rw [List.argmax_eq_none.mp hbest] at hmem
    exact absurd hmem List.not_mem_nil
  | some best =>
    obtain ⟨winner, at'⟩ := best
    obtain ⟨hwinner, hkey, hat⟩ := mem_membersOfOwner.mp (List.argmax_mem hbest)
    have howner : owner winner.job.id = owner entry.job.id := by
      apply ownerKeyFor_injective
      rw [← hkeys _ hwinner, ← hkeys _ hentry, hkey]
    refine ⟨winner, at', ⟨hwinner, hat, ?_⟩, howner⟩
    intro other hother howner' hne c' hc'
    have hmem' : (other, c') ∈ membersOfOwner planned entry.job.ownerKey := by
      refine mem_membersOfOwner.mpr ⟨hother, ?_, hc'⟩
      rw [hkeys _ hother, hkeys _ hentry, howner', howner]
    apply (rank_lt_rank _ _).mp
    refine lt_of_le_of_ne (List.le_of_mem_argmax hmem' hbest) ?_
    intro heq
    exact hne (hids.eq hother hwinner (OrderDual.toDual_inj.mp (Prod.mk.inj (toLex_inj.mp heq)).2))

theorem GoesBefore.not_symm {a b : PlannedJob × ℤ} (h : GoesBefore a b) : ¬GoesBefore b a := by
  rw [← rank_lt_rank] at h ⊢
  exact h.asymm

theorem ownedCatchUp_settle (planned : List PlannedJob) (entry : PlannedJob) :
    ownedCatchUp (settle planned entry) =
      if isLoser planned entry then none else ownedCatchUp entry := by
  unfold settle
  split
  case isTrue => exact ownedCatchUp_dropLateRun entry
  case isFalse => rfl

/-- The winner alone keeps its catch-up run. -/
theorem Wins.kept_iff {owner : ℕ → ScheduledJobOwner} {planned : List PlannedJob}
    (hids : DistinctIds planned)
    (hkeys : ∀ entry ∈ planned, entry.job.ownerKey = ownerKeyFor (owner entry.job.id))
    {winner : PlannedJob} {c : ℤ} (hwins : Wins owner planned winner c) {entry : PlannedJob}
    (hentry : entry ∈ planned) (howner : owner entry.job.id = owner winner.job.id) :
    (ownedCatchUp (settle planned entry)).isSome ↔ entry = winner := by
  obtain ⟨hwinner, hc, hbefore⟩ := hwins
  rw [ownedCatchUp_settle]
  constructor
  · intro h
    by_contra hne
    split at h
    case isTrue => cases h
    case isFalse hkept =>
      obtain ⟨c', hc'⟩ := Option.isSome_iff_exists.mp h
      refine hkept ((isLoser_iff hids hentry).mpr
        ⟨c', hc', _, mem_membersOfOwner.mpr ⟨hwinner, ?_, hc⟩,
          hbefore entry hentry howner hne c' hc'⟩)
      rw [hkeys _ hwinner, hkeys _ hentry, howner]
  · rintro rfl
    rw [if_neg, hc, Option.isSome_some]
    intro hlost
    obtain ⟨c', hc', ⟨rival, at'⟩, hrival, hless⟩ := (isLoser_iff hids hentry).mp hlost
    obtain rfl := Option.some.inj (hc.symm.trans hc')
    obtain ⟨hrival, hkey, hat⟩ := mem_membersOfOwner.mp hrival
    by_cases heq : rival = entry
    · subst heq
      obtain rfl := Option.some.inj (hc.symm.trans hat)
      exact hless.not_symm hless
    · refine hless.not_symm (hbefore rival hrival ?_ heq at' hat)
      apply ownerKeyFor_injective
      rw [← hkeys _ hrival, ← hkeys _ hentry, hkey]

theorem distinctIds_applyCoalesceOwnerPolicy {planned : List PlannedJob}
    (hids : DistinctIds planned) : DistinctIds (applyCoalesceOwnerPolicy planned) := by
  unfold DistinctIds at hids ⊢
  rw [applyCoalesceOwnerPolicy_eq, List.map_map]
  have hjobs : (fun entry : PlannedJob => entry.job.id) ∘ settle planned = (·.job.id) := by
    ext entry
    exact congrArg ScheduledJob.id (settle_job planned entry)
  rwa [hjobs]

/-- The coalescing jobs of an owner are left with one catch-up run, the winner's. -/
theorem catchingUp_applyCoalesceOwnerPolicy {owner : ℕ → ScheduledJobOwner}
    {planned : List PlannedJob} (hids : DistinctIds planned)
    (hkeys : ∀ entry ∈ planned, entry.job.ownerKey = ownerKeyFor (owner entry.job.id))
    {winner : PlannedJob} {c : ℤ} (hwins : Wins owner planned winner c) :
    catchingUp owner (applyCoalesceOwnerPolicy planned) (owner winner.job.id) = [winner] := by
  have hkeep : settle planned winner = winner := by
    have h := (hwins.kept_iff hids hkeys hwins.1 rfl).mpr rfl
    rw [ownedCatchUp_settle] at h
    split at h
    case isTrue => cases h
    case isFalse hkept => exact if_neg hkept
  have hnodup : (applyCoalesceOwnerPolicy planned).Nodup :=
    (distinctIds_applyCoalesceOwnerPolicy hids).of_map
  apply List.perm_singleton.mp
  refine (List.perm_ext_iff_of_nodup (hnodup.filter _) (List.nodup_singleton _)).mpr ?_
  intro entry
  rw [List.mem_filter, List.mem_singleton, applyCoalesceOwnerPolicy_eq, List.mem_map,
    decide_eq_true_eq]
  constructor
  · rintro ⟨⟨before, hbefore, rfl⟩, howner, hsome⟩
    rw [settle_job] at howner
    rw [(hwins.kept_iff hids hkeys hbefore howner).mp hsome, hkeep]
  · rintro rfl
    refine ⟨⟨entry, hwins.1, hkeep⟩, rfl, ?_⟩
    rw [hwins.2.1, Option.isSome_some]

/-- The order of the jobs does not matter. -/
theorem settle_congr {planned shuffled : List PlannedJob} (hids : DistinctIds planned)
    (hperm : planned.Perm shuffled) {entry : PlannedJob} (hentry : entry ∈ planned) :
    settle planned entry = settle shuffled entry := by
  have hids' : DistinctIds shuffled := (hperm.map _).nodup_iff.mp hids
  have hlost : isLoser planned entry = isLoser shuffled entry := by
    rw [Bool.eq_iff_iff, isLoser_iff hids hentry, isLoser_iff hids' (hperm.mem_iff.mp hentry)]
    simp only [Prod.exists, mem_membersOfOwner, hperm.mem_iff]
  unfold settle
  rw [hlost]

theorem applyCoalesceOwnerPolicy_perm {planned shuffled : List PlannedJob}
    (hids : DistinctIds planned) (hperm : planned.Perm shuffled) :
    (applyCoalesceOwnerPolicy planned).Perm (applyCoalesceOwnerPolicy shuffled) := by
  rw [applyCoalesceOwnerPolicy_eq, applyCoalesceOwnerPolicy_eq,
    List.map_congr_left fun entry hentry => settle_congr hids hperm hentry]
  exact hperm.map _

/-- Among the winners nobody loses. -/
theorem settle_settle {planned : List PlannedJob} (hids : DistinctIds planned)
    {entry : PlannedJob} (hentry : entry ∈ planned) :
    settle (applyCoalesceOwnerPolicy planned) (settle planned entry) = settle planned entry := by
  refine if_neg fun hlost => ?_
  obtain ⟨c, hc, ⟨rival, at'⟩, hrival, hless⟩ :=
    (isLoser_iff (distinctIds_applyCoalesceOwnerPolicy hids)
      (List.mem_map_of_mem (f := settle planned) hentry)).mp hlost
  obtain ⟨hrival, hkey, hat⟩ := mem_membersOfOwner.mp hrival
  rw [applyCoalesceOwnerPolicy_eq, List.mem_map] at hrival
  obtain ⟨before, hbefore, rfl⟩ := hrival
  rw [ownedCatchUp_settle] at hc hat
  split at hc
  case isTrue => cases hc
  case isFalse hkept =>
    split at hat
    case isTrue => cases hat
    case isFalse hkept' =>
      rw [settle_job, settle_job] at hkey
      rw [settle, if_neg hkept', settle, if_neg hkept] at hless
      exact hkept ((isLoser_iff hids hentry).mpr
        ⟨c, hc, _, mem_membersOfOwner.mpr ⟨hbefore, hkey, hat⟩, hless⟩)

theorem applyCoalesceOwnerPolicy_idem {planned : List PlannedJob} (hids : DistinctIds planned) :
    applyCoalesceOwnerPolicy (applyCoalesceOwnerPolicy planned) =
      applyCoalesceOwnerPolicy planned := by
  rw [applyCoalesceOwnerPolicy_eq (applyCoalesceOwnerPolicy planned)]
  nth_rewrite 2 [applyCoalesceOwnerPolicy_eq planned]
  rw [List.map_map]
  exact List.map_congr_left fun entry hentry => settle_settle hids hentry

/-- **One catch-up run for each owner**: the policy leaves each owner that has coalescing jobs to
catch up the run that goes before all others, and takes nothing else from a plan. The order of the
jobs does not matter, and a second application changes nothing. -/
theorem applyCoalesceOwnerPolicy_keeps_one (owner : ℕ → ScheduledJobOwner)
    (planned : List PlannedJob) (hids : DistinctIds planned)
    (hkeys : ∀ entry ∈ planned, entry.job.ownerKey = ownerKeyFor (owner entry.job.id))
    (hplans : ∀ entry ∈ planned, entry.plan.CatchUpFirst) :
    Function.Injective ownerKeyFor ∧
      (∀ o, catchingUp owner planned o ≠ [] → ∃ winner c, Wins owner planned winner c ∧
        owner winner.job.id = o ∧
        catchingUp owner (applyCoalesceOwnerPolicy planned) o = [winner]) ∧
      List.Forall₂ Settles planned (applyCoalesceOwnerPolicy planned) ∧
      (∀ shuffled, planned.Perm shuffled →
        (applyCoalesceOwnerPolicy planned).Perm (applyCoalesceOwnerPolicy shuffled)) ∧
      applyCoalesceOwnerPolicy (applyCoalesceOwnerPolicy planned) =
        applyCoalesceOwnerPolicy planned := by
  refine ⟨ownerKeyFor_injective, ?_, ?_, fun _ => applyCoalesceOwnerPolicy_perm hids,
    applyCoalesceOwnerPolicy_idem hids⟩
  · intro o hsome
    obtain ⟨entry, hof⟩ := List.exists_mem_of_ne_nil _ hsome
    obtain ⟨hentry, hof⟩ := List.mem_filter.mp hof
    obtain ⟨rfl, hcatch⟩ := decide_eq_true_eq.mp hof
    obtain ⟨c, hc⟩ := Option.isSome_iff_exists.mp hcatch
    obtain ⟨winner, c, hwins, howner⟩ := exists_wins hids hkeys hentry hc
    refine ⟨winner, c, hwins, howner, ?_⟩
    rw [← howner]
    exact catchingUp_applyCoalesceOwnerPolicy hids hkeys hwins
  · rw [applyCoalesceOwnerPolicy_eq, List.forall₂_map_right_iff, List.forall₂_same]
    intro entry hentry
    exact settles_settle hids hentry (hplans entry hentry)

/-- The jobs that a pass plans meet what the policy relies on. -/
theorem planned_withOwnerKeys (calendar : Calendar) (options : MaterializerOptions)
    (owner : ℕ → ScheduledJobOwner) (claimed : DueJobs)
    (hids : (claimed.jobs.map ScheduledJob.id).Nodup) {planned : List PlannedJob}
    (h : planned = ((withOwnerKeys owner claimed).jobs.map fun job =>
      planOrDeferJob calendar job claimed.now options).map Prod.fst) :
    DistinctIds planned ∧
      (∀ entry ∈ planned, entry.job.ownerKey = ownerKeyFor (owner entry.job.id)) ∧
      ∀ entry ∈ planned, entry.plan.CatchUpFirst := by
  have hjob (job : ScheduledJob) :
      (planOrDeferJob calendar job claimed.now options).1.job = job := by
    unfold planOrDeferJob
    split <;> rfl
  subst h
  refine ⟨?_, ?_, ?_⟩
  · unfold DistinctIds withOwnerKeys
    simpa only [List.map_map, Function.comp_def, hjob] using hids
  · intro entry hentry
    simp only [withOwnerKeys, List.map_map, List.mem_map] at hentry
    obtain ⟨job, -, rfl⟩ := hentry
    simp only [Function.comp_apply, hjob]
  · intro entry hentry
    simp only [List.map_map, List.mem_map] at hentry
    obtain ⟨job, -, rfl⟩ := hentry
    exact planOrDeferJob_catchUpFirst calendar job claimed.now options

/-- The owners of three rules: two of one node, and one of a node whose name begins with the
separator. -/
def ownerOfRule : ℕ → ScheduledJobOwner
  | 1 | 2 => ⟨"workflow", "wf:", some "node"⟩
  | _ => ⟨"workflow", "wf", some ":node"⟩

/-- A rule of a trigger that missed its runs up to an instant. -/
def missedRule (id : ℕ) (latest : ℤ) : PlannedJob where
  job := {
    id
    taskType := "schedule-trigger"
    payload := .null
    kind := .interval
    cronExpression := none
    timezone := none
    intervalSeconds := some 10
    fireAt := none
    recurrenceUnit := none
    recurrenceSize := none
    enabled := true
    nextRunAt := some 0
    lastFiredAt := none
    maxAttempts := 1
    misfirePolicy := .coalesceOwner
    misfireGraceSeconds := 5
    ownerKey := ownerKeyFor (ownerOfRule id) }
  plan := ⟨[latest, latest + 10000], 3, some latest, some latest, some (latest + 20000), none⟩

def missedRules : List PlannedJob :=
  [missedRule 2 50000, missedRule 3 40000, missedRule 1 50000]

theorem applyCoalesceOwnerPolicy_keeps_one_rules :
    ∃ winner c, Wins ownerOfRule missedRules winner c ∧
      ownerOfRule winner.job.id = ownerOfRule 1 ∧
      catchingUp ownerOfRule (applyCoalesceOwnerPolicy missedRules) (ownerOfRule 1) = [winner] := by
  have hone : missedRule 1 50000 ∈ catchingUp ownerOfRule missedRules (ownerOfRule 1) := by
    refine List.mem_filter.mpr ⟨List.mem_append_right [_, _] (List.mem_singleton_self _), ?_⟩
    rfl
  refine (applyCoalesceOwnerPolicy_keeps_one ownerOfRule missedRules ?_ ?_ ?_).2.1
    (ownerOfRule 1) (List.ne_nil_of_mem hone)
  · unfold DistinctIds
    decide
  · intro entry hentry
    simp only [missedRules, List.mem_cons, List.not_mem_nil, or_false] at hentry
    obtain rfl | rfl | rfl := hentry <;> rfl
  · intro entry hentry c hc
    simp only [missedRules, List.mem_cons, List.not_mem_nil, or_false] at hentry
    obtain rfl | rfl | rfl := hentry <;> exact hc

end N8n.Scheduler
