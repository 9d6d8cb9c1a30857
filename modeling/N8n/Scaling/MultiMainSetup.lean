import Mathlib.Logic.Function.Basic
import Mathlib.Order.Nat
import N8n.Foundations.Transition

/-!
# The leader of several main instances

Main instances agree on a leader through a key in Redis that expires. An instance claims the key
when it starts, renews or claims it in periodic checks, and clears it when it shuts down as leader.
Between two commands an instance can pause for any time, and a command can fail, whether or not
Redis has executed it.

## Main definitions

* `Redis`: the leader key, with its removals so far
* `Instance`, `Call`: an instance, and its call of `init` or its check in progress
* `multiMain`: any number of instances as a transition system
-/

namespace N8n.Scaling

variable {Host : Type} [DecidableEq Host]

/-! ## Redis -/

/-- Why the leader key was removed. -/
inductive Cause (Host : Type)
  | expiry
  | clearedBy (host : Host)
deriving DecidableEq, Repr

structure Redis (Host : Type) where
  now : ℕ
  /-- The host that has set the leader key, and when the key expires. -/
  leaderKey : Option (Host × ℕ)
  /-- For every host, until when the key lasts that it has set or renewed last. -/
  lease : Host → ℕ
  /-- The hosts whose key was removed, and why. -/
  removals : List (Host × Cause Host)

inductive Result (α : Type)
  | ok (result : α)
  | error
deriving DecidableEq, Repr

inductive TtlRenewalResult (Host : Type)
  | keyMissing
  | otherHostIsLeader (currentLeaderId : Host)
  | success
deriving DecidableEq, Repr

/-- Whether a command reaches Redis, and whether its reply comes back. -/
inductive Delivery
  | answered | unanswered | lost
deriving DecidableEq, Repr

namespace Redis

def initial : Redis Host := ⟨0, none, fun _ => 0, []⟩

variable (ttl : ℕ) (host : Host) (r : Redis Host)

def holder : Option Host := r.leaderKey.map Prod.fst

/-- The key of a host lasts anew. -/
def extend : Redis Host :=
  { r with
    leaderKey := some (host, r.now + ttl)
    lease := Function.update r.lease host (r.now + ttl) }

def getLeader : Redis Host × Result (Option Host) := (r, .ok r.holder)

/-- Set the key if there is none. A lifetime of zero is refused. -/
def setLeaderIfNotExists : Redis Host × Result Bool :=
  if ttl = 0 then (r, .error)
  else
    match r.leaderKey with
    | some _ => (r, .ok false)
    | none => (r.extend ttl host, .ok true)

/-- The script that extends the lifetime of the key only if the host holds it. -/
def tryRenewLeaderTtl : Redis Host × Result (TtlRenewalResult Host) :=
  match r.holder with
  | none => (r, .ok .keyMissing)
  | some currentLeaderId =>
    if currentLeaderId ≠ host then (r, .ok (.otherHostIsLeader currentLeaderId))
    else (r.extend ttl host, .ok .success)

/-- Delete the key, whoever has set it. -/
def clearLeader : Redis Host :=
  { r with
    leaderKey := none
    lease := Function.update r.lease host 0
    removals := r.removals ++ (r.holder.map fun holder => (holder, .clearedBy host)).toList }

/-- Time passes. -/
def elapse (duration : ℕ) : Redis Host :=
  let now := r.now + duration
  match r.leaderKey with
  | some (holder, expiresAt) =>
    if expiresAt ≤ now then
      { r with now, leaderKey := none, removals := r.removals ++ [(holder, .expiry)] }
    else { r with now }
  | none => { r with now }

/-- What becomes of a command, for Redis and for the instance. -/
def deliver {α : Type} (delivery : Delivery) (executed : Redis Host × Result α) :
    Redis Host × Result α :=
  match delivery with
  | .answered => executed
  | .unanswered => (executed.1, .error)
  | .lost => (r, .error)

end Redis

/-! ## Instances -/

inductive InstanceRole
  | unset | leader | follower
deriving DecidableEq, Repr

inductive MultiMainEvent
  | leaderStepdown | leaderTakeover
deriving DecidableEq, Repr

/-- The command that a call of `init` or a check waits for, and its result. -/
inductive Stage (Host : Type)
  /-- `init` sets the key. -/
  | initializing (result : Option (Result Bool))
  /-- A leader renews the key. -/
  | renewing (result : Option (Result (TtlRenewalResult Host)))
  /-- A leader whose key is missing sets it. -/
  | reclaiming (result : Option (Result Bool))
  /-- A follower reads the key. -/
  | getting (result : Option (Result (Option Host)))
  /-- A follower that has found no key sets it. -/
  | claiming (result : Option (Result Bool))
deriving DecidableEq, Repr

/-- A call of `init` or a check in progress. -/
structure Call (Host : Type) where
  stage : Stage Host
  failed : Bool
  /-- Whether the host held the key, at every moment so far. -/
  seen : List Bool
deriving DecidableEq, Repr

/-- A check that has completed, with the role it has left. -/
structure Check where
  isLeader : Bool
  failed : Bool
  seen : List Bool
deriving DecidableEq, Repr

/-- How far `shutdown` is. -/
inductive Shutdown
  | running
  /-- The command that clears the key is on its way. -/
  | clearing
  /-- It has failed, or Redis has executed it. -/
  | cleared
  | destroyed
deriving DecidableEq, Repr

structure Instance (Host : Type) where
  role : InstanceRole
  /-- `init` was called. -/
  initialized : Bool
  /-- The interval is armed. -/
  leaderCheckInterval : Bool
  call : Option (Call Host)
  shutdown : Shutdown
  /-- The events emitted so far. -/
  events : List MultiMainEvent
  /-- The checks completed so far. -/
  checks : List Check
deriving DecidableEq, Repr

namespace Instance

def initial : Instance Host := ⟨.unset, false, false, none, .running, [], []⟩

section Operations

variable (host : Host) (i : Instance Host)

def isLeader : Bool := i.role = .leader

def markAsFollower : Instance Host := { i with role := .follower }

/-- An instance that is leader already fails the assertion. -/
def takeOverAsLeader : Instance Host :=
  if i.isLeader then i
  else { i with role := .leader, events := i.events ++ [.leaderTakeover] }

def stepDownToFollower : Instance Host :=
  if i.isLeader then { i with role := .follower, events := i.events ++ [.leaderStepdown] } else i

def begin (stage : Stage Host) : Instance Host := { i with call := some ⟨stage, false, []⟩ }

/-- `init` sets up the interval, whatever has become of its command. -/
def finishInit : Instance Host := { i with call := none, leaderCheckInterval := true }

def finishCheck (call : Call Host) : Instance Host :=
  { i with call := none, checks := i.checks ++ [⟨i.isLeader, call.failed, call.seen⟩] }

/-- A check starts, unless the previous one is still in progress. -/
def checkLeader : Instance Host :=
  if i.call.isSome then i
  else if i.isLeader then i.begin (.renewing none)
  else i.begin (.getting none)

/-- The call goes on with the result of its command. -/
def resume (call : Call Host) : Option (Instance Host) :=
  match call.stage with
  | .initializing none | .renewing none | .reclaiming none | .getting none | .claiming none => none
  | .initializing (some (.ok true)) => some i.takeOverAsLeader.finishInit
  | .initializing (some _) => some i.markAsFollower.finishInit
  | .renewing (some .error) | .renewing (some (.ok .success)) => some (i.finishCheck call)
  | .renewing (some (.ok (.otherHostIsLeader _))) => some (i.stepDownToFollower.finishCheck call)
  | .renewing (some (.ok .keyMissing)) =>
    some { i with call := some { call with stage := .reclaiming none } }
  | .reclaiming (some (.ok true)) => some (i.finishCheck call)
  | .reclaiming (some _) => some (i.stepDownToFollower.finishCheck call)
  | .getting (some .error) => some (i.finishCheck call)
  | .getting (some (.ok (some leaderId))) =>
    if leaderId = host then some (i.takeOverAsLeader.finishCheck call)
    else some (i.finishCheck call)
  | .getting (some (.ok none)) =>
    some { i with call := some { call with stage := .claiming none } }
  | .claiming (some (.ok true)) => some (i.takeOverAsLeader.finishCheck call)
  | .claiming (some _) => some (i.finishCheck call)

/-- What `shutdown` does before it waits. -/
def beginShutdown : Instance Host :=
  { i with
    leaderCheckInterval := false
    shutdown := if i.isLeader then .clearing else .destroyed }

/-- Another moment of the call in progress. -/
def observe (holds : Bool) : Instance Host :=
  { i with call := i.call.map fun call => { call with seen := call.seen ++ [holds] } }

end Operations

end Instance

def Call.receive {Host α : Type} (call : Call Host) (stage : Option (Result α) → Stage Host)
    (result : Result α) : Call Host :=
  { call with
    stage := stage (some result)
    failed := call.failed || match result with | .ok _ => false | .error => true }

/-! ## Runs -/

structure MultiMain (Host : Type) where
  redis : Redis Host
  instances : Host → Instance Host

inductive Event (Host : Type)
  | init (host : Host)
  | intervalFires (host : Host)
  | shutdown (host : Host)
  /-- The command of a call reaches Redis, or does not. -/
  | command (host : Host) (delivery : Delivery)
  | resume (host : Host)
  /-- The command that clears the key reaches Redis, or does not. -/
  | clear (host : Host) (delivery : Delivery)
  | destroy (host : Host)
  | elapse (duration : ℕ)
deriving DecidableEq, Repr

namespace MultiMain

variable (ttl : ℕ) (m : MultiMain Host)

def initial : MultiMain Host := ⟨.initial, fun _ => .initial⟩

def set (host : Host) (i : Instance Host) : MultiMain Host :=
  { m with instances := Function.update m.instances host i }

/-- The command of a call. Once the client is destroyed, no reply comes back. -/
def command (host : Host) (call : Call Host) (delivery : Delivery) : Option (MultiMain Host) :=
  let receive {α : Type} (stage : Option (Result α) → Stage Host)
      (executed : Redis Host × Result α) : MultiMain Host :=
    let delivered := m.redis.deliver delivery executed
    { m with redis := delivered.1 }.set host
      { m.instances host with call := some (call.receive stage delivered.2) }
  if (m.instances host).shutdown = .destroyed ∧ delivery = .answered then none
  else
    match call.stage with
    | .initializing none => some (receive .initializing (m.redis.setLeaderIfNotExists ttl host))
    | .renewing none => some (receive .renewing (m.redis.tryRenewLeaderTtl ttl host))
    | .reclaiming none => some (receive .reclaiming (m.redis.setLeaderIfNotExists ttl host))
    | .getting none => some (receive .getting m.redis.getLeader)
    | .claiming none => some (receive .claiming (m.redis.setLeaderIfNotExists ttl host))
    | .initializing (some _) | .renewing (some _) | .reclaiming (some _) | .getting (some _)
    | .claiming (some _) => none

/-- A step, before the calls in progress have seen where it leads. -/
def act : Event Host → Option (MultiMain Host)
  | .init host =>
    if (m.instances host).initialized then none
    else
      some (m.set host { (m.instances host).begin (.initializing none) with initialized := true })
  | .intervalFires host =>
    if (m.instances host).leaderCheckInterval then some (m.set host (m.instances host).checkLeader)
    else none
  | .shutdown host =>
    if (m.instances host).shutdown = .running then
      some (m.set host (m.instances host).beginShutdown)
    else none
  | .command host delivery =>
    (m.instances host).call.bind fun call => m.command ttl host call delivery
  | .resume host =>
    (m.instances host).call.bind fun call =>
      ((m.instances host).resume host call).map fun i => m.set host i
  | .clear host delivery =>
    if (m.instances host).shutdown = .clearing then
      some ({ m with redis :=
        (m.redis.deliver delivery (m.redis.clearLeader host, Result.ok ())).1 }.set host
          { m.instances host with shutdown := .cleared })
    else none
  | .destroy host =>
    if (m.instances host).shutdown = .cleared then
      some (m.set host { m.instances host with shutdown := .destroyed })
    else none
  | .elapse duration => some { m with redis := m.redis.elapse duration }

/-- Every call in progress sees whether its host holds the key. -/
def observe : MultiMain Host :=
  { m with instances := fun host => (m.instances host).observe (m.redis.holder = some host) }

def next (e : Event Host) : Option (MultiMain Host) := (m.act ttl e).map observe

end MultiMain

def multiMain (Host : Type) [DecidableEq Host] (ttl : ℕ) :
    Transition.System (MultiMain Host) (Event Host) where
  init m := m = .initial
  step m e n := m.next ttl e = some n

end N8n.Scaling
