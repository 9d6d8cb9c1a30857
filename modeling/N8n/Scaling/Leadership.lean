import Mathlib.Data.List.Chain
import N8n.Scaling.MultiMainSetup

/-!
# Who removes the leader key

The key of a leader lasts for a while after it was set or renewed. The command that clears it does
not ask whose key it is, and removes that of another host when it is executed after this time. What
a check leaves behind agrees with what Redis held during the check, unless a command has failed.

## Main definitions

* `Leased`: the key of a host is there as long as it lasts
* `Slip`: a key is cleared after the time for which the host that clears it has held its own
* `Sound`: what an instance knows of the key, and the events that it has emitted

## Main results

* `Leased.next`: without a slip a key is removed by expiry, or by its host
* `Sound.next`: events alternate, and checks agree with the key
* `leadership_run`: both along every run
* `not_owned`: a leader that pauses before it clears the key
-/

namespace N8n.Scaling

open MultiMain

variable {Host : Type} {ttl : ℕ} {host other : Host} {α : Type}

/-! ## The key -/

section Key

variable {r : Redis Host} {delivery : Delivery}

/-- The key of a host is there as long as it lasts, and keys were removed by expiry or by their
hosts. -/
structure Leased (r : Redis Host) : Prop where
  key : ∀ host, r.now < r.lease host → r.leaderKey = some (host, r.lease host)
  removals : ∀ removal ∈ r.removals, removal.2 = .expiry ∨ removal.2 = .clearedBy removal.1

theorem Leased.deliver {executed : Redis Host × Result α} (h : Leased r)
    (hexecuted : Leased executed.1) : Leased (r.deliver delivery executed).1 := by
  cases delivery with
  | answered => exact hexecuted
  | unanswered => exact hexecuted
  | lost => exact h

theorem Leased.elapse (h : Leased r) (duration : ℕ) : Leased (r.elapse duration) := by
  have hbefore : ∀ other, r.now + duration < r.lease other → r.now < r.lease other :=
    fun other hlt => (Nat.le_add_right _ _).trans_lt hlt
  unfold Redis.elapse
  cases hkey : r.leaderKey with
  | none =>
    refine ⟨fun other hlt => ?_, h.removals⟩
    exact absurd (h.key other (hbefore other hlt)) (by simp [hkey])
  | some key =>
    obtain ⟨holder, expiresAt⟩ := key
    dsimp only
    split_ifs with hexpired
    · refine ⟨fun other hlt => ?_, fun removal hremoval => ?_⟩
      · have hother := h.key other (hbefore other hlt)
        rw [hkey] at hother
        obtain ⟨rfl, rfl⟩ := Prod.mk.inj (Option.some.inj hother)
        exact absurd hlt (not_lt.mpr hexpired)
      · rcases List.mem_append.mp hremoval with hold | hnew
        · exact h.removals removal hold
        · obtain rfl := List.mem_singleton.mp hnew
          exact .inl rfl
    · refine ⟨fun other hlt => ?_, h.removals⟩
      exact hkey ▸ h.key other (hbefore other hlt)

variable [DecidableEq Host]

theorem Leased.extend (h : Leased r) (hholder : r.holder = none ∨ r.holder = some host) :
    Leased (r.extend ttl host) where
  key other hlt := by
    by_cases heq : other = host
    · subst heq
      simp [Redis.extend]
    · -- the key of another host does not last any more
      have hlease : (r.extend ttl host).lease other = r.lease other :=
        Function.update_of_ne heq _ _
      rw [hlease] at hlt
      have hkey : r.holder = some other := by
        rw [Redis.holder, h.key other hlt]
        rfl
      rcases hholder with hnone | hsome
      · rw [hkey] at hnone
        cases hnone
      · rw [hkey] at hsome
        exact absurd (Option.some.inj hsome) heq
  removals := h.removals

theorem Leased.setLeaderIfNotExists (h : Leased r) :
    Leased (r.setLeaderIfNotExists ttl host).1 := by
  unfold Redis.setLeaderIfNotExists
  split_ifs
  · exact h
  · cases hkey : r.leaderKey with
    | some key => exact h
    | none =>
      refine h.extend (.inl ?_)
      rw [Redis.holder, hkey]
      rfl

theorem Leased.tryRenewLeaderTtl (h : Leased r) : Leased (r.tryRenewLeaderTtl ttl host).1 := by
  unfold Redis.tryRenewLeaderTtl
  cases hholder : r.holder with
  | none => exact h
  | some currentLeaderId =>
    dsimp only
    split_ifs with hne
    · exact h
    · have heq : currentLeaderId = host := not_not.mp hne
      exact h.extend (.inr (heq ▸ hholder))

/-- A key that is cleared while it lasts is that of the host. -/
theorem Leased.clearLeader (h : Leased r) (hlease : r.now < r.lease host ∨ r.leaderKey = none) :
    Leased (r.clearLeader host) where
  key other hlt := by
    by_cases heq : other = host
    · subst heq
      simp [Redis.clearLeader] at hlt
    · have hother : (r.clearLeader host).lease other = r.lease other :=
        Function.update_of_ne heq _ _
      rw [hother] at hlt
      have hkey := h.key other hlt
      rcases hlease with hlease | hnone
      · rw [h.key host hlease] at hkey
        exact absurd (congrArg Prod.fst (Option.some.inj hkey)).symm heq
      · rw [hnone] at hkey
        cases hkey
  removals removal hremoval := by
    rcases List.mem_append.mp hremoval with hold | hnew
    · exact h.removals removal hold
    · rw [Redis.holder] at hnew
      rcases hlease with hlease | hnone
      · rw [h.key host hlease] at hnew
        obtain rfl := List.mem_singleton.mp hnew
        exact .inr rfl
      · rw [hnone] at hnew
        cases hnew

end Key

/-! ## Results -/

section Results

variable {r : Redis Host} {delivery : Delivery}

theorem deliver_ok {executed : Redis Host × Result α} {a : α}
    (h : (r.deliver delivery executed).2 = .ok a) :
    (r.deliver delivery executed).1 = executed.1 ∧ executed.2 = .ok a := by
  cases delivery with
  | answered => exact ⟨rfl, h⟩
  | unanswered => cases h
  | lost => cases h

variable [DecidableEq Host]

theorem holder_of_set (h : (r.setLeaderIfNotExists ttl host).2 = .ok true) :
    (r.setLeaderIfNotExists ttl host).1.holder = some host := by
  unfold Redis.setLeaderIfNotExists at h ⊢
  split_ifs at h ⊢
  cases hkey : r.leaderKey with
  | some key =>
    rw [hkey] at h
    cases h
  | none => rfl

/-- What a renewal says of the key is so when it has been executed. -/
theorem holder_of_renewal {result : TtlRenewalResult Host}
    (h : (r.tryRenewLeaderTtl ttl host).2 = .ok result) :
    (r.tryRenewLeaderTtl ttl host).1.holder = some host ↔ result = .success := by
  unfold Redis.tryRenewLeaderTtl at h ⊢
  cases hholder : r.holder with
  | none =>
    rw [hholder] at h
    cases h
    dsimp only
    rw [hholder]
    exact ⟨nofun, nofun⟩
  | some currentLeaderId =>
    rw [hholder] at h
    dsimp only at h ⊢
    split_ifs at h ⊢ with hne
    · cases h
      rw [hholder]
      exact ⟨fun heq => absurd (Option.some.inj heq) hne, nofun⟩
    · cases h
      exact ⟨fun _ => rfl, fun _ => rfl⟩

end Results

/-! ## Instances -/

section Instances

variable {i : Instance Host} {call : Call Host} {isLeader holds : Bool} {j : Instance Host}

/-- What a call knows of the key, from the results of its commands. -/
def Stage.Knows (host : Host) (isLeader failed : Bool) (seen : List Bool) : Stage Host → Prop
  | .initializing _ => isLeader = false
  | .renewing result => isLeader = true ∧
    (result = some .error → failed = true) ∧
    (result = some (.ok .success) → true ∈ seen) ∧
    ∀ renewal, result = some (.ok renewal) → renewal ≠ .success → false ∈ seen
  | .reclaiming result => isLeader = true ∧ false ∈ seen ∧
    (result = some .error → failed = true) ∧ (result = some (.ok true) → true ∈ seen)
  | .getting result => isLeader = false ∧
    (result = some .error → failed = true) ∧
    (result = some (.ok (some host)) → true ∈ seen) ∧
    ∀ leaderId, result = some (.ok leaderId) → leaderId ≠ some host → false ∈ seen
  | .claiming result => isLeader = false ∧ false ∈ seen ∧
    (result = some .error → failed = true) ∧ (result = some (.ok true) → true ∈ seen)

/-- The events alternate, and the last one says whether the instance is leader. -/
structure Alternating (i : Instance Host) : Prop where
  alternate : i.events.IsChain (· ≠ ·)
  first : i.events.head? ≠ some .leaderStepdown
  last : i.isLeader = true ↔ i.events.getLast? = some .leaderTakeover

/-- The checks completed agree with the key at some moment, unless a command has failed. -/
structure Sound (host : Host) (i : Instance Host) : Prop where
  events : Alternating i
  checks : ∀ check ∈ i.checks, check.failed = false → check.isLeader ∈ check.seen
  call : ∀ call ∈ i.call, call.stage.Knows host i.isLeader call.failed call.seen
  fresh : i.initialized = false →
    i.isLeader = false ∧ i.call = none ∧ i.leaderCheckInterval = false

theorem Stage.Knows.mono {stage : Stage Host} {failed : Bool} {seen seen' : List Bool}
    (h : stage.Knows host isLeader failed seen) (hseen : ∀ b ∈ seen, b ∈ seen') :
    stage.Knows host isLeader failed seen' := by
  cases stage with
  | initializing result => exact h
  | renewing result =>
    obtain ⟨hleader, herror, hsuccess, hother⟩ := h
    exact ⟨hleader, herror, fun hr => hseen _ (hsuccess hr),
      fun renewal hr hne => hseen _ (hother renewal hr hne)⟩
  | reclaiming result =>
    obtain ⟨hleader, hfalse, herror, htrue⟩ := h
    exact ⟨hleader, hseen _ hfalse, herror, fun hr => hseen _ (htrue hr)⟩
  | getting result =>
    obtain ⟨hleader, herror, hown, hother⟩ := h
    exact ⟨hleader, herror, fun hr => hseen _ (hown hr),
      fun leaderId hr hne => hseen _ (hother leaderId hr hne)⟩
  | claiming result =>
    obtain ⟨hleader, hfalse, herror, htrue⟩ := h
    exact ⟨hleader, hseen _ hfalse, herror, fun hr => hseen _ (htrue hr)⟩

theorem Sound.observe (h : Sound host i) (holds : Bool) : Sound host (i.observe holds) where
  events := ⟨h.events.alternate, h.events.first, h.events.last⟩
  checks := h.checks
  call call hcall := by
    obtain ⟨before, hbefore, rfl⟩ := Option.map_eq_some_iff.mp hcall
    exact (h.call before hbefore).mono fun b hb => List.mem_append_left _ hb
  fresh hfresh := by
    obtain ⟨hfollower, hnone, hinterval⟩ := h.fresh hfresh
    refine ⟨hfollower, ?_, hinterval⟩
    rw [Instance.observe, hnone]
    rfl

theorem Sound.initial : Sound host (Instance.initial : Instance Host) where
  events := ⟨.nil, nofun, ⟨nofun, nofun⟩⟩
  checks := nofun
  call := nofun
  fresh _ := ⟨rfl, rfl, rfl⟩

theorem Sound.initialized (h : Sound host i) (hcall : i.call = some call) :
    i.initialized = true := by
  cases hinit : i.initialized with
  | true => rfl
  | false =>
    rw [(h.fresh hinit).2.1] at hcall
    cases hcall

theorem Alternating.of_eq (h : Alternating i) (hrole : j.role = i.role)
    (hevents : j.events = i.events) : Alternating j where
  alternate := hevents ▸ h.alternate
  first := hevents ▸ h.first
  last := by
    rw [hevents, Instance.isLeader, hrole]
    exact h.last

theorem Alternating.takeOverAsLeader (h : Alternating i) : Alternating i.takeOverAsLeader := by
  unfold Instance.takeOverAsLeader
  split_ifs with hleader
  · exact h
  · -- the last event, if any, is a stepdown
    have hlast := mt h.last.mpr hleader
    refine ⟨?_, ?_, ⟨fun _ => ?_, fun _ => rfl⟩⟩
    · refine List.isChain_append.mpr ⟨h.alternate, .singleton _, ?_⟩
      rintro event hevent next ⟨⟩ rfl
      exact hlast hevent
    · cases hevents : i.events with
      | nil => exact nofun
      | cons event events =>
        have hfirst := h.first
        rw [hevents] at hfirst
        exact hfirst
    · exact List.getLast?_concat

theorem Alternating.stepDownToFollower (h : Alternating i) :
    Alternating i.stepDownToFollower := by
  unfold Instance.stepDownToFollower
  split_ifs with hleader
  · have hlast := h.last.mp hleader
    refine ⟨?_, ?_, ⟨nofun, fun hlast' => ?_⟩⟩
    · refine List.isChain_append.mpr ⟨h.alternate, .singleton _, ?_⟩
      rintro event hevent next ⟨⟩ rfl
      rw [hlast] at hevent
      cases hevent
    · cases hevents : i.events with
      | nil =>
        rw [hevents] at hlast
        cases hlast
      | cons event events =>
        have hfirst := h.first
        rw [hevents] at hfirst
        exact hfirst
    · have hstepdown : (i.events ++ [MultiMainEvent.leaderStepdown]).getLast? =
          some .leaderStepdown := List.getLast?_concat
      rw [hstepdown] at hlast'
      cases hlast'
  · exact h

theorem Alternating.markAsFollower (h : Alternating i) (hfollower : i.isLeader = false) :
    Alternating i.markAsFollower := by
  refine ⟨h.alternate, h.first, ⟨nofun, fun hlast => ?_⟩⟩
  have hleader : i.isLeader = true := h.last.mpr hlast
  rw [hfollower] at hleader
  cases hleader

theorem isLeader_takeOverAsLeader (i : Instance Host) : i.takeOverAsLeader.isLeader = true := by
  unfold Instance.takeOverAsLeader
  split_ifs with hleader
  · exact hleader
  · rfl

theorem isLeader_stepDownToFollower (i : Instance Host) :
    i.stepDownToFollower.isLeader = false := by
  unfold Instance.stepDownToFollower
  split_ifs with hleader
  · rfl
  · simpa using hleader

theorem takeOverAsLeader_same (i : Instance Host) : i.takeOverAsLeader.checks = i.checks ∧
    i.takeOverAsLeader.initialized = i.initialized := by
  unfold Instance.takeOverAsLeader
  split_ifs <;> exact ⟨rfl, rfl⟩

theorem stepDownToFollower_same (i : Instance Host) : i.stepDownToFollower.checks = i.checks ∧
    i.stepDownToFollower.initialized = i.initialized := by
  unfold Instance.stepDownToFollower
  split_ifs <;> exact ⟨rfl, rfl⟩

/-- A check completes with a role that agrees with the key. -/
theorem Sound.finishCheck (h : Sound host i) (hcall : i.call = some call) (hevents : Alternating j)
    (hsame : j.checks = i.checks ∧ j.initialized = i.initialized)
    (hagree : call.failed = false → j.isLeader ∈ call.seen) : Sound host (j.finishCheck call) where
  events := hevents.of_eq rfl rfl
  checks check hcheck := by
    rcases List.mem_append.mp hcheck with hold | hnew
    · rw [hsame.1] at hold
      exact h.checks check hold
    · obtain rfl := List.mem_singleton.mp hnew
      exact hagree
  call := nofun
  fresh hfresh := by
    have hinit : i.initialized = false := hsame.2.symm.trans hfresh
    rw [h.initialized hcall] at hinit
    cases hinit

theorem Sound.finishInit (h : Sound host i) (hcall : i.call = some call) (hevents : Alternating j)
    (hsame : j.checks = i.checks ∧ j.initialized = i.initialized) : Sound host j.finishInit where
  events := hevents.of_eq rfl rfl
  checks := by
    show ∀ check ∈ j.checks, _
    rw [hsame.1]
    exact h.checks
  call := nofun
  fresh hfresh := by
    have hinit : i.initialized = false := hsame.2.symm.trans hfresh
    rw [h.initialized hcall] at hinit
    cases hinit

/-- A call starts. -/
theorem Sound.begin {stage : Stage Host} (h : Sound host i) (hinit : i.initialized = true)
    (hknows : stage.Knows host i.isLeader false []) : Sound host (i.begin stage) where
  events := h.events.of_eq rfl rfl
  checks := h.checks
  call := by
    rintro call ⟨⟩
    exact hknows
  fresh hfresh := by
    have hfresh : i.initialized = false := hfresh
    rw [hinit] at hfresh
    cases hfresh

theorem Sound.checkLeader (h : Sound host i) (hinterval : i.leaderCheckInterval = true) :
    Sound host i.checkLeader := by
  have hinit : i.initialized = true := by
    cases hinit : i.initialized with
    | true => rfl
    | false =>
      rw [(h.fresh hinit).2.2] at hinterval
      cases hinterval
  unfold Instance.checkLeader
  split_ifs with hcall hleader
  · exact h
  · exact h.begin hinit ⟨hleader, nofun, nofun, nofun⟩
  · exact h.begin hinit ⟨by simpa using hleader, nofun, nofun, nofun⟩

variable [DecidableEq Host]

/-- **What a check leaves behind** agrees with the key. -/
theorem Sound.resume (h : Sound host i) (hcall : i.call = some call)
    (hs : i.resume host call = some j) : Sound host j := by
  have hknows := h.call call hcall
  obtain ⟨stage, failed, seen⟩ := call
  cases stage with
  | initializing result =>
    have hfollower : i.isLeader = false := hknows
    rcases result with _ | (_ | _) | _
    · cases hs
    · cases hs
      exact h.finishInit hcall (h.events.markAsFollower hfollower) ⟨rfl, rfl⟩
    · cases hs
      exact h.finishInit hcall h.events.takeOverAsLeader (takeOverAsLeader_same i)
    · cases hs
      exact h.finishInit hcall (h.events.markAsFollower hfollower) ⟨rfl, rfl⟩
  | renewing result =>
    obtain ⟨hleader, herror, hsuccess, hother⟩ := hknows
    rcases result with _ | (_ | leaderId | _) | _
    · cases hs
    · -- the key is missing
      cases hs
      refine ⟨h.events.of_eq rfl rfl, h.checks, ?_, fun hfresh => ?_⟩
      · rintro call ⟨⟩
        exact ⟨hleader, hother _ rfl nofun, nofun, nofun⟩
      · rw [(h.fresh hfresh).2.1] at hcall
        cases hcall
    · cases hs
      refine h.finishCheck hcall h.events.stepDownToFollower (stepDownToFollower_same i) fun _ => ?_
      rw [isLeader_stepDownToFollower]
      exact hother _ rfl nofun
    · cases hs
      refine h.finishCheck hcall h.events ⟨rfl, rfl⟩ fun _ => ?_
      rw [hleader]
      exact hsuccess rfl
    · cases hs
      refine h.finishCheck hcall h.events ⟨rfl, rfl⟩ fun hfailed => ?_
      rw [herror rfl] at hfailed
      cases hfailed
  | reclaiming result =>
    obtain ⟨hleader, hfalse, herror, htrue⟩ := hknows
    rcases result with _ | (_ | _) | _
    · cases hs
    · cases hs
      refine h.finishCheck hcall h.events.stepDownToFollower (stepDownToFollower_same i) fun _ => ?_
      rw [isLeader_stepDownToFollower]
      exact hfalse
    · cases hs
      refine h.finishCheck hcall h.events ⟨rfl, rfl⟩ fun _ => ?_
      rw [hleader]
      exact htrue rfl
    · cases hs
      refine h.finishCheck hcall h.events.stepDownToFollower (stepDownToFollower_same i) fun _ => ?_
      rw [isLeader_stepDownToFollower]
      exact hfalse
  | getting result =>
    obtain ⟨hfollower, herror, hown, hother⟩ := hknows
    rcases result with _ | (_ | leaderId) | _
    · cases hs
    · -- nobody is leader
      cases hs
      refine ⟨h.events.of_eq rfl rfl, h.checks, ?_, fun hfresh => ?_⟩
      · rintro call ⟨⟩
        exact ⟨hfollower, hother _ rfl nofun, nofun, nofun⟩
      · rw [(h.fresh hfresh).2.1] at hcall
        cases hcall
    · simp only [Instance.resume] at hs
      split_ifs at hs with heq
      · cases hs
        subst heq
        refine h.finishCheck hcall h.events.takeOverAsLeader (takeOverAsLeader_same i) fun _ => ?_
        rw [isLeader_takeOverAsLeader]
        exact hown rfl
      · cases hs
        refine h.finishCheck hcall h.events ⟨rfl, rfl⟩ fun _ => ?_
        rw [hfollower]
        exact hother _ rfl fun hsome => heq (Option.some.inj hsome)
    · cases hs
      refine h.finishCheck hcall h.events ⟨rfl, rfl⟩ fun hfailed => ?_
      rw [herror rfl] at hfailed
      cases hfailed
  | claiming result =>
    obtain ⟨hfollower, hfalse, herror, htrue⟩ := hknows
    rcases result with _ | (_ | _) | _
    · cases hs
    · cases hs
      refine h.finishCheck hcall h.events ⟨rfl, rfl⟩ fun _ => ?_
      rw [hfollower]
      exact hfalse
    · cases hs
      refine h.finishCheck hcall h.events.takeOverAsLeader (takeOverAsLeader_same i) fun _ => ?_
      rw [isLeader_takeOverAsLeader]
      exact htrue rfl
    · cases hs
      refine h.finishCheck hcall h.events ⟨rfl, rfl⟩ fun _ => ?_
      rw [hfollower]
      exact hfalse

/-- **A result is received**, and at this moment the call sees the key as the result says. -/
theorem Sound.receive {stage : Option (Result α) → Stage Host} {r : Redis Host}
    {delivery : Delivery} {executed : Redis Host × Result α} (h : Sound host i)
    (hcall : i.call = some call) (hstage : call.stage = stage none)
    (hreceive : (stage none).Knows host i.isLeader call.failed call.seen →
      ∀ failed seen, (∀ b ∈ call.seen, b ∈ seen) →
      ((r.deliver delivery executed).2 = .error → failed = true) →
      (∀ result, (r.deliver delivery executed).2 = .ok result →
        decide (executed.1.holder = some host) ∈ seen) →
      (stage (some (r.deliver delivery executed).2)).Knows host i.isLeader failed seen) :
    Sound host ({ i with call := some (call.receive stage (r.deliver delivery executed).2) }.observe
      ((r.deliver delivery executed).1.holder = some host)) where
  events := h.events.of_eq rfl rfl
  checks := h.checks
  call := by
    have hknows := h.call call hcall
    rw [hstage] at hknows
    rintro _ ⟨⟩
    refine hreceive hknows _ _ (fun b hb => List.mem_append_left _ hb) (fun herror => ?_) ?_
    · rw [herror]
      exact Bool.or_true _
    · intro result hdelivered
      rw [(deliver_ok hdelivered).1]
      exact List.mem_append_right _ (List.mem_singleton.mpr rfl)
  fresh hfresh := by
    rw [(h.fresh hfresh).2.1] at hcall
    cases hcall

end Instances

/-! ## Runs -/

section Runs

variable [DecidableEq Host] {m n : MultiMain Host} {call : Call Host} {delivery : Delivery}
  {e : Event Host} {es : List (Event Host)}

theorem instances_set_self (m : MultiMain Host) (host : Host) (i : Instance Host) :
    (m.set host i).instances host = i := by
  show Function.update m.instances host i host = i
  rw [Function.update_self]

theorem instances_set_of_ne (m : MultiMain Host) (i : Instance Host) (h : other ≠ host) :
    (m.set host i).instances other = m.instances other := by
  show Function.update m.instances host i other = m.instances other
  rw [Function.update_of_ne h]

theorem Sound.set {i : Instance Host} (h : ∀ host, Sound host (m.instances host))
    (hi : Sound host i) (other : Host) : Sound other ((m.set host i).instances other) := by
  by_cases heq : other = host
  · subst heq
    rw [instances_set_self]
    exact hi
  · rw [instances_set_of_ne m i heq]
    exact h other

/-- The results of the commands, as a call knows them. -/
theorem Sound.command (h : ∀ host, Sound host (m.instances host))
    (hcall : (m.instances host).call = some call)
    (hs : m.command ttl host call delivery = some n) (other : Host) :
    Sound other ((n.instances other).observe (n.redis.holder = some other)) := by
  -- the instance of the call, and the others
  have hset : ∀ {α : Type} (stage : Option (Result α) → Stage Host)
      (executed : Redis Host × Result α),
      Sound host ({ m.instances host with
          call := some (call.receive stage (m.redis.deliver delivery executed).2) }.observe
        ((m.redis.deliver delivery executed).1.holder = some host)) →
      n = { m with redis := (m.redis.deliver delivery executed).1 }.set host
        { m.instances host with
          call := some (call.receive stage (m.redis.deliver delivery executed).2) } →
      Sound other ((n.instances other).observe (n.redis.holder = some other)) := by
    intro α stage executed hsound heq
    rw [heq]
    by_cases hother : other = host
    · subst hother
      rw [instances_set_self]
      exact hsound
    · rw [instances_set_of_ne _ _ hother]
      exact (h other).observe _
  unfold MultiMain.command at hs
  split_ifs at hs
  cases hstage : call.stage with
  | initializing result =>
    cases result with
    | some result =>
      rw [hstage] at hs
      cases hs
    | none =>
      rw [hstage] at hs
      refine hset _ _ ((h host).receive hcall hstage ?_) (Option.some.inj hs).symm
      exact fun hknows _ _ _ _ _ => hknows
  | renewing result =>
    cases result with
    | some result =>
      rw [hstage] at hs
      cases hs
    | none =>
      rw [hstage] at hs
      refine hset _ _ ((h host).receive hcall hstage ?_) (Option.some.inj hs).symm
      rintro ⟨hleader, -⟩ failed seen - herror hseen
      refine ⟨hleader, fun hr => herror (Option.some.inj hr), fun hr => ?_, ?_⟩
      · have hdelivered := Option.some.inj hr
        have hholder := holder_of_renewal (deliver_ok hdelivered).2
        have hmem := hseen _ hdelivered
        rwa [decide_eq_true (hholder.mpr rfl)] at hmem
      · intro renewal hr hne
        have hdelivered := Option.some.inj hr
        have hholder := holder_of_renewal (deliver_ok hdelivered).2
        have hmem := hseen _ hdelivered
        rwa [decide_eq_false (mt hholder.mp hne)] at hmem
  | reclaiming result =>
    cases result with
    | some result =>
      rw [hstage] at hs
      cases hs
    | none =>
      rw [hstage] at hs
      refine hset _ _ ((h host).receive hcall hstage ?_) (Option.some.inj hs).symm
      rintro ⟨hleader, hfalse, -⟩ failed seen hold herror hseen
      refine ⟨hleader, hold _ hfalse, fun hr => herror (Option.some.inj hr), fun hr => ?_⟩
      have hdelivered := Option.some.inj hr
      have hmem := hseen _ hdelivered
      rwa [decide_eq_true (holder_of_set (deliver_ok hdelivered).2)] at hmem
  | getting result =>
    cases result with
    | some result =>
      rw [hstage] at hs
      cases hs
    | none =>
      rw [hstage] at hs
      refine hset _ _ ((h host).receive hcall hstage ?_) (Option.some.inj hs).symm
      rintro ⟨hfollower, -⟩ failed seen - herror hseen
      -- the key is read as it is
      have hholder : ∀ leaderId, (m.redis.deliver delivery m.redis.getLeader).2 = .ok leaderId →
          decide (leaderId = some host) ∈ seen := by
        intro leaderId hdelivered
        have hread : m.redis.holder = leaderId := by
          have hok := (deliver_ok hdelivered).2
          exact Result.ok.inj hok
        rw [← hread]
        exact hseen _ hdelivered
      refine ⟨hfollower, fun hr => herror (Option.some.inj hr), fun hr => ?_, ?_⟩
      · have hmem := hholder _ (Option.some.inj hr)
        rwa [decide_eq_true rfl] at hmem
      · intro leaderId hr hne
        have hmem := hholder _ (Option.some.inj hr)
        rwa [decide_eq_false hne] at hmem
  | claiming result =>
    cases result with
    | some result =>
      rw [hstage] at hs
      cases hs
    | none =>
      rw [hstage] at hs
      refine hset _ _ ((h host).receive hcall hstage ?_) (Option.some.inj hs).symm
      rintro ⟨hfollower, hfalse, -⟩ failed seen hold herror hseen
      refine ⟨hfollower, hold _ hfalse, fun hr => herror (Option.some.inj hr), fun hr => ?_⟩
      have hdelivered := Option.some.inj hr
      have hmem := hseen _ hdelivered
      rwa [decide_eq_true (holder_of_set (deliver_ok hdelivered).2)] at hmem

/-- **The step lemma** for the instances. -/
theorem Sound.next (h : ∀ host, Sound host (m.instances host)) (hs : m.next ttl e = some n)
    (other : Host) : Sound other (n.instances other) := by
  obtain ⟨acted, hact, rfl⟩ := Option.map_eq_some_iff.mp hs
  show Sound other ((acted.instances other).observe (acted.redis.holder = some other))
  cases e with
  | init host =>
    simp only [act] at hact
    split_ifs at hact with hinit
    cases hact
    refine Sound.observe (Sound.set h ?_ other) _
    have hfresh := (h host).fresh (by simpa using hinit)
    refine ⟨(h host).events.of_eq rfl rfl, (h host).checks, ?_, nofun⟩
    rintro call ⟨⟩
    exact hfresh.1
  | intervalFires host =>
    simp only [act] at hact
    split_ifs at hact with hinterval
    cases hact
    exact Sound.observe (Sound.set h ((h host).checkLeader hinterval) other) _
  | shutdown host =>
    simp only [act] at hact
    split_ifs at hact
    cases hact
    have hi : Sound host (m.instances host).beginShutdown := by
      refine ⟨(h host).events.of_eq rfl rfl, (h host).checks, (h host).call, fun hfresh => ?_⟩
      obtain ⟨hfollower, hnone, -⟩ := (h host).fresh hfresh
      exact ⟨hfollower, hnone, rfl⟩
    exact Sound.observe (Sound.set h hi other) _
  | command host delivery =>
    obtain ⟨call, hcall, hact⟩ := Option.bind_eq_some_iff.mp hact
    exact Sound.command h hcall hact other
  | resume host =>
    obtain ⟨call, hcall, hact⟩ := Option.bind_eq_some_iff.mp hact
    obtain ⟨i, hi, rfl⟩ := Option.map_eq_some_iff.mp hact
    exact Sound.observe (Sound.set h ((h host).resume hcall hi) other) _
  | clear host delivery =>
    simp only [act] at hact
    split_ifs at hact
    cases hact
    have hi : Sound host { m.instances host with shutdown := .cleared } :=
      ⟨(h host).events.of_eq rfl rfl, (h host).checks, (h host).call, (h host).fresh⟩
    exact Sound.observe (Sound.set (m := { m with redis :=
      (m.redis.deliver delivery (m.redis.clearLeader host, Result.ok ())).1 }) h hi other) _
  | destroy host =>
    simp only [act] at hact
    split_ifs at hact
    cases hact
    have hi : Sound host { m.instances host with shutdown := .destroyed } :=
      ⟨(h host).events.of_eq rfl rfl, (h host).checks, (h host).call, (h host).fresh⟩
    exact Sound.observe (Sound.set h hi other) _
  | elapse duration =>
    cases hact
    exact (h other).observe _

/-- The command that clears the key is executed while somebody holds it, and later than the key of
the host that sends it lasts. -/
def Slip (m : MultiMain Host) : Event Host → Prop
  | .clear host delivery =>
    delivery ≠ .lost ∧ m.redis.leaderKey ≠ none ∧ m.redis.lease host ≤ m.redis.now
  | _ => False

/-- **The step lemma** for the key. -/
theorem Leased.next (h : Leased m.redis) (hs : m.next ttl e = some n) (hslip : ¬ Slip m e) :
    Leased n.redis := by
  obtain ⟨acted, hact, rfl⟩ := Option.map_eq_some_iff.mp hs
  show Leased acted.redis
  cases e with
  | init host | intervalFires host | shutdown host | destroy host =>
    simp only [act] at hact
    split_ifs at hact
    cases hact
    exact h
  | command host delivery =>
    obtain ⟨call, -, hact⟩ := Option.bind_eq_some_iff.mp hact
    unfold MultiMain.command at hact
    split_ifs at hact
    cases hstage : call.stage with
    | initializing result | reclaiming result | claiming result =>
      cases result <;> rw [hstage] at hact
      · cases hact
        exact h.deliver h.setLeaderIfNotExists
      · cases hact
    | renewing result =>
      cases result <;> rw [hstage] at hact
      · cases hact
        exact h.deliver h.tryRenewLeaderTtl
      · cases hact
    | getting result =>
      cases result <;> rw [hstage] at hact
      · cases hact
        exact h.deliver h
      · cases hact
  | resume host =>
    obtain ⟨call, -, hact⟩ := Option.bind_eq_some_iff.mp hact
    obtain ⟨i, -, rfl⟩ := Option.map_eq_some_iff.mp hact
    exact h
  | clear host delivery =>
    simp only [act] at hact
    split_ifs at hact
    cases hact
    show Leased (m.redis.deliver delivery (m.redis.clearLeader host, Result.ok ())).1
    by_cases hlost : delivery = .lost
    · subst hlost
      exact h
    · refine h.deliver (h.clearLeader ?_)
      by_contra hnot
      rw [not_or, not_lt] at hnot
      exact hslip ⟨hlost, hnot.2, hnot.1⟩
  | elapse duration =>
    cases hact
    exact h.elapse duration

theorem sound_run (h : (multiMain Host ttl).Run .initial es m) (host : Host) :
    Sound host (m.instances host) :=
  h.history_invariant (I := fun _ m => ∀ host, Sound host (m.instances host))
    (fun _ => .initial) (fun hm hs => Sound.next hm hs) host

/-- A run without a slip. -/
abbrev Steady (Host : Type) [DecidableEq Host] (ttl : ℕ) :
    Transition.System (MultiMain Host) (Event Host) :=
  (multiMain Host ttl).restrict fun m e _ => ¬ Slip m e

theorem leased_run (h : (Steady Host ttl).Run .initial es m) : Leased m.redis :=
  h.history_invariant (I := fun _ m => Leased m.redis)
    ⟨fun _ hlt => absurd hlt (Nat.not_lt_zero _), nofun⟩ fun hm hs => hm.next hs.1 hs.2

/-- **Leadership.** The events of an instance alternate, and begin with a takeover. A check that has
completed without a failed command leaves a role that agrees with the key at a moment of the check.
Along a run without a slip a key is removed by expiry, or by its host. -/
theorem leadership_run (h : (multiMain Host ttl).Run .initial es m) :
    (∀ host, (m.instances host).events.IsChain (· ≠ ·) ∧
      (m.instances host).events.head? ≠ some .leaderStepdown) ∧
    (∀ host, ∀ check ∈ (m.instances host).checks, check.failed = false →
      check.isLeader ∈ check.seen) ∧
    ((Steady Host ttl).Run .initial es m → ∀ removal ∈ m.redis.removals,
      removal.2 = .expiry ∨ removal.2 = .clearedBy removal.1) := by
  refine ⟨fun host => ?_, fun host => ?_, fun hsteady => ?_⟩
  · exact ⟨(sound_run h host).events.alternate, (sound_run h host).events.first⟩
  · exact (sound_run h host).checks
  · exact (leased_run hsteady).removals

/-- A leader that renews its key, and clears it while it lasts. -/
theorem leadership_run_cleared : ∃ m : MultiMain Bool,
    (m.instances true).events.IsChain (· ≠ ·) ∧
    (∃ check ∈ (m.instances true).checks, check.isLeader = true ∧ true ∈ check.seen) ∧
    (true, .clearedBy true) ∈ m.redis.removals := by
  obtain ⟨m, hrun, hchecks, hremovals⟩ : ∃ m, (Steady Bool 10).Run .initial
      [.init true, .command true .answered, .resume true, .intervalFires true,
        .command true .answered, .resume true, .shutdown true, .clear true .answered] m ∧
      ⟨true, false, [true, true]⟩ ∈ (m.instances true).checks ∧
      (true, .clearedBy true) ∈ m.redis.removals := by
    refine ⟨_, .restrict_cons rfl id <| .restrict_cons rfl id <| .restrict_cons rfl id <|
      .restrict_cons rfl id <| .restrict_cons rfl id <| .restrict_cons rfl id <|
      .restrict_cons rfl id <| .restrict_cons rfl ?_ .nil, List.mem_cons_self, List.mem_cons_self⟩
    -- the key lasts until 10
    rintro ⟨-, -, hlease⟩
    exact absurd hlease (Nat.not_succ_le_zero 9)
  obtain ⟨halternate, hagree, -⟩ := leadership_run hrun.of_restrict
  exact ⟨m, (halternate true).1, ⟨_, hchecks, rfl, hagree true _ hchecks rfl⟩, hremovals⟩

/-- **A leader that pauses before it clears the key.** The key expires, another host becomes leader,
and its key is removed. -/
theorem not_owned : ∃ m, (multiMain Bool 10).Run .initial
    [.init true, .command true .answered, .resume true, .shutdown true, .elapse 10, .init false,
      .command false .answered, .resume false, .clear true .answered] m ∧
    (false, .clearedBy true) ∈ m.redis.removals ∧ (m.instances false).isLeader = true ∧
    m.redis.holder = none :=
  ⟨_, Transition.System.run_of_follow id rfl, List.mem_cons_of_mem _ List.mem_cons_self, rfl, rfl⟩

end Runs

end N8n.Scaling
