import Mathlib.Data.Finset.Basic
import Mathlib.Logic.Function.Basic
import N8n.Foundations.Transition

/-!
# Isolates of the expression evaluator

Expressions are evaluated in isolates, each behind a bridge that one caller holds at a time. Bridges
are warm in a pool, which replaces those that are taken, or are created for a caller when the pool
has none. With an idle timeout the pool is disposed after some time without a caller, and made again
for the next.

A bridge is initialized across an await, unless a caller needs it at once. Bridges, pools and
callers are numbers. Both kinds of pool are one state here: without an idle timeout the inner pool
is always the first one.

## Main definitions

* `RuntimeBridge`, `IsolatePool`: bridges, and what one pool has
* `ExpressionEvaluator`: the evaluator, and the pools that it has made
* `ExpressionEvaluator.next`: the calls, and what resumes after an await
* `expressionEvaluator`: the evaluator as a transition system
-/

namespace N8n.ExpressionRuntime

/-! ## Bridges and pools -/

inductive Creation
  | initializing | created | failed
deriving DecidableEq, Repr

structure RuntimeBridge where
  creation : Creation
  disposed : Bool
deriving DecidableEq, Repr

structure EvaluatorConfig where
  poolSize : ℕ
  /-- `idleTimeoutMs` is set. -/
  hasIdleTimeout : Bool
  lazyAcquire : Bool

structure IsolatePool where
  bridges : List ℕ
  /-- The bridges that `initialize` creates. -/
  initializing : List ℕ
  warming : ℕ
  /-- The bridge that is created, and the attempt. -/
  replenishPromises : List (ℕ × ℕ)
  /-- The attempts that are yet to be made. -/
  retryTimers : List ℕ
  /-- How many calls of `release` wait until their bridge is disposed. -/
  releasing : ℕ
  disposed : Bool
  /-- `dispose` is through. -/
  settled : Bool
deriving DecidableEq

namespace IsolatePool

def maxReplenishRetries : ℕ := 3

def empty : IsolatePool where
  bridges := []
  initializing := []
  warming := 0
  replenishPromises := []
  retryTimers := []
  releasing := 0
  disposed := false
  settled := false

end IsolatePool

/-! ## The evaluator -/

/-- What `pendingScaleUp` waits for. -/
inductive ScaleUp
  | initializing (pool : ℕ)
  | disposing (pool : ℕ)
  | finishing
deriving DecidableEq, Repr

/-- What `dispose` waits for. -/
inductive Disposal
  | draining
  | disposing (pool : ℕ)
  | settled
deriving DecidableEq, Repr

structure ExpressionEvaluator where
  bridges : ℕ → RuntimeBridge
  /-- How many bridges were made so far. -/
  bridgeCount : ℕ
  pools : ℕ → IsolatePool
  poolCount : ℕ
  innerPool : Option ℕ
  pendingScaleUp : Option ScaleUp
  pendingScaleDown : Option ℕ
  idleTimer : Bool
  disposed : Bool
  disposal : Option Disposal
  bridgesByCaller : ℕ → Option ℕ
  lazyScopes : Finset ℕ
  /-- The callers whose `acquire` waits for a bridge, and the bridge. -/
  coldStarts : List (ℕ × ℕ)

inductive Event
  | acquire (caller : ℕ)
  /-- A bridge that is needed at once may fail to be initialized, and the isolate may die. -/
  | evaluate (caller : ℕ) (initialized dies : Bool)
  | release (caller : ℕ)
  | coldStarted (bridge : ℕ) (initialized : Bool)
  | replenished (pool bridge : ℕ) (initialized : Bool)
  | retry (pool timer : ℕ)
  | released (pool : ℕ)
  | idle
  | initialized (pool bridge : ℕ) (initialized : Bool)
  | scaledUp
  | scaleUpFinished
  | poolDisposed (pool : ℕ)
  | scaledDown
  | dispose
  | drained
  | disposed

/-- What `acquire` of a pool returns or throws. -/
inductive Acquired
  | bridge (id : ℕ)
  | poolExhausted
  | poolDisposed

namespace ExpressionEvaluator

/-- After `initialize` has resolved, which needs one bridge at least. -/
def initial (config : EvaluatorConfig) (outcomes : List Bool) : ExpressionEvaluator where
  bridges b :=
    match outcomes[b]? with
    | some true => ⟨.created, false⟩
    | some false => ⟨.failed, false⟩
    | none => ⟨.initializing, false⟩
  bridgeCount := outcomes.length
  pools := Function.update (fun _ => .empty) 0
    { IsolatePool.empty with
      bridges := (List.range outcomes.length).filter (outcomes[·]? = some true) }
  poolCount := 1
  innerPool := some 0
  pendingScaleUp := none
  pendingScaleDown := none
  idleTimer := config.hasIdleTimeout
  disposed := false
  disposal := none
  bridgesByCaller _ := none
  lazyScopes := ∅
  coldStarts := []

section Operations

variable (config : EvaluatorConfig) (t : ExpressionEvaluator)

def setPool (k : ℕ) (pool : IsolatePool) : ExpressionEvaluator :=
  { t with pools := Function.update t.pools k pool }

@[simp] theorem pools_setPool (k : ℕ) (pool : IsolatePool) : (t.setPool k pool).pools k = pool := by
  simp [setPool]

theorem pools_setPool_of_ne {j k : ℕ} (h : j ≠ k) (pool : IsolatePool) :
    (t.setPool k pool).pools j = t.pools j := by
  simp [setPool, h]

def setBridge (b : ℕ) (bridge : RuntimeBridge) : ExpressionEvaluator :=
  { t with bridges := Function.update t.bridges b bridge }

def disposeBridge (b : ℕ) : ExpressionEvaluator :=
  t.setBridge b { t.bridges b with disposed := true }

def endCreation (b : ℕ) (initialized : Bool) : ExpressionEvaluator :=
  t.setBridge b { t.bridges b with creation := if initialized then .created else .failed }

/-- `bridgesByCaller.set(caller, bridge)` -/
def hold (caller b : ℕ) : ExpressionEvaluator :=
  { t with bridgesByCaller := Function.update t.bridgesByCaller caller (some b) }

/-! ### A pool -/

def replenish (k attempt : ℕ) : ExpressionEvaluator :=
  let pool := t.pools k
  if pool.disposed then t
  else if config.poolSize ≤ pool.bridges.length + pool.warming then t
  else
    { t.setPool k { pool with
        warming := pool.warming + 1
        replenishPromises := pool.replenishPromises ++ [(t.bridgeCount, attempt)] } with
      bridgeCount := t.bridgeCount + 1 }

/-- `IsolatePool.acquire` -/
def acquireFrom (k : ℕ) : ExpressionEvaluator × Acquired :=
  if (t.pools k).disposed then (t, .poolDisposed)
  else
    match (t.pools k).bridges with
    | [] => (t, .poolExhausted)
    | b :: bridges => ((t.setPool k { t.pools k with bridges }).replenish config k 0, .bridge b)

/-- `IsolatePool.release`: it goes on once the bridge is disposed. -/
def releaseTo (k b : ℕ) : ExpressionEvaluator :=
  if (t.bridges b).disposed then t.replenish config k 0
  else
    (t.disposeBridge b).setPool k { t.pools k with releasing := (t.pools k).releasing + 1 }

/-- A replenishment has a bridge, or fails and is tried again later. -/
def replenished (k b : ℕ) (initialized : Bool) : Option ExpressionEvaluator :=
  ((t.pools k).replenishPromises.find? (·.1 = b)).map fun promise =>
    let pool := { t.pools k with
      warming := (t.pools k).warming - 1
      replenishPromises := (t.pools k).replenishPromises.filter (·.1 ≠ b) }
    let ended := t.endCreation b initialized
    if initialized then
      if pool.disposed then (ended.disposeBridge b).setPool k pool
      else ended.setPool k { pool with bridges := pool.bridges ++ [b] }
    else if promise.2 < IsolatePool.maxReplenishRetries then
      ended.setPool k { pool with retryTimers := pool.retryTimers ++ [promise.2 + 1] }
    else ended.setPool k pool

def retry (k i : ℕ) : Option ExpressionEvaluator :=
  (t.pools k).retryTimers[i]?.map fun attempt =>
    (t.setPool k { t.pools k with
      retryTimers := (t.pools k).retryTimers.eraseIdx i }).replenish config k attempt

def released (k : ℕ) : Option ExpressionEvaluator :=
  if 0 < (t.pools k).releasing then
    some ((t.setPool k { t.pools k with
      releasing := (t.pools k).releasing - 1 }).replenish config k 0)
  else none

/-- The start of `IsolatePool.dispose` -/
def disposePool (k : ℕ) : ExpressionEvaluator :=
  t.setPool k { t.pools k with disposed := true }

/-- The rest of it: the replenishments have ended, and none begins after that. -/
def poolDisposed (k : ℕ) : Option ExpressionEvaluator :=
  let pool := t.pools k
  if pool.disposed = true ∧ pool.settled = false ∧ pool.replenishPromises = [] then
    some { t.setPool k { pool with bridges := [], settled := true } with
      bridges b :=
        if b ∈ pool.bridges then { t.bridges b with disposed := true } else t.bridges b }
  else none

/-! ### Scaling -/

def resetIdleTimer : ExpressionEvaluator :=
  if config.hasIdleTimeout then { t with idleTimer := true } else t

def triggerScaleUp : ExpressionEvaluator :=
  if t.pendingScaleUp.isSome || t.innerPool.isSome || t.disposed then t
  else
    { t.setPool t.poolCount { IsolatePool.empty with
        initializing := List.range' t.bridgeCount config.poolSize } with
      bridgeCount := t.bridgeCount + config.poolSize
      poolCount := t.poolCount + 1
      pendingScaleUp := some (.initializing t.poolCount) }

def triggerScaleDown : ExpressionEvaluator :=
  match t.innerPool with
  | none => t
  | some k =>
    if t.pendingScaleDown.isSome || t.pendingScaleUp.isSome || t.disposed then t
    else { t.disposePool k with innerPool := none, pendingScaleDown := some k }

/-- The pool is initialized, or has no bridge. -/
def scaledUp : Option ExpressionEvaluator :=
  match t.pendingScaleUp with
  | some (.initializing k) =>
    let pool := t.pools k
    let bridges := pool.bridges ++
      pool.initializing.filter fun b => (t.bridges b).creation = .created
    if pool.initializing.any fun b => (t.bridges b).creation = .initializing then none
    else
      let u := t.setPool k { pool with bridges, initializing := [] }
      if bridges = [] ∨ t.disposed = true then
        some { u.disposePool k with pendingScaleUp := some (.disposing k) }
      else
        some ({ u with innerPool := some k, pendingScaleUp := some .finishing }.resetIdleTimer
          config)
  | _ => none

def scaleUpFinished : Option ExpressionEvaluator :=
  match t.pendingScaleUp with
  | some (.disposing k) =>
    if (t.pools k).settled then some { t with pendingScaleUp := none } else none
  | some .finishing => some { t with pendingScaleUp := none }
  | _ => none

def scaledDown : Option ExpressionEvaluator :=
  match t.pendingScaleDown with
  | some k => if (t.pools k).settled then some { t with pendingScaleDown := none } else none
  | none => none

/-- `this.pool.acquire()` -/
def acquirePool : ExpressionEvaluator × Acquired :=
  if t.disposed then (t, .poolDisposed)
  else
    match t.innerPool with
    | none => (t.triggerScaleUp config, .poolExhausted)
    | some k => (t.resetIdleTimer config).acquireFrom config k

/-- `this.pool.release(bridge)`: a pool that scales to zero disposes the bridge itself when it has
no inner pool. -/
def releasePool (b : ℕ) : ExpressionEvaluator :=
  match t.innerPool with
  | some k =>
    if config.hasIdleTimeout && t.disposed then t.disposeBridge b else t.releaseTo config k b
  | none => t.disposeBridge b

/-! ### The calls of the evaluator -/

def acquire (caller : ℕ) : ExpressionEvaluator :=
  if t.disposed then t
  else if (t.bridgesByCaller caller).isSome then t
  else if config.lazyAcquire then { t with lazyScopes := insert caller t.lazyScopes }
  else
    match t.acquirePool config with
    | (u, .bridge b) => u.hold caller b
    | (u, .poolExhausted) =>
      { u with
        bridgeCount := u.bridgeCount + 1
        coldStarts := u.coldStarts ++ [(caller, u.bridgeCount)] }
    | (u, .poolDisposed) => u

def coldStarted (b : ℕ) (initialized : Bool) : Option ExpressionEvaluator :=
  (t.coldStarts.find? (·.2 = b)).map fun start =>
    let u := { t.endCreation b initialized with coldStarts := t.coldStarts.filter (·.2 ≠ b) }
    if initialized then u.hold start.1 b else u

/-- `getBridge`: the bridge of a lazy scope is created when it is first needed. -/
def getBridge (caller : ℕ) (initialized : Bool) : ExpressionEvaluator :=
  if t.bridgesByCaller caller = none ∧ caller ∈ t.lazyScopes then
    match t.acquirePool config with
    | (u, .bridge b) => u.hold caller b
    | (u, .poolExhausted) =>
      let v := { u.endCreation u.bridgeCount initialized with bridgeCount := u.bridgeCount + 1 }
      if initialized then v.hold caller u.bridgeCount else v.disposeBridge u.bridgeCount
    | (u, .poolDisposed) => u
  else t

def evaluate (caller : ℕ) (initialized dies : Bool) : ExpressionEvaluator :=
  if t.disposed then t
  else
    let u := t.getBridge config caller initialized
    match u.bridgesByCaller caller with
    | some b => if dies then u.disposeBridge b else u
    | none => u

def release (caller : ℕ) : ExpressionEvaluator :=
  let u := { t with lazyScopes := t.lazyScopes.erase caller }
  match t.bridgesByCaller caller with
  | none => u
  | some b =>
    { u with bridgesByCaller := Function.update u.bridgesByCaller caller none }.releasePool config b

/-- A second call waits for what the first one does. -/
def dispose : ExpressionEvaluator :=
  if t.disposal.isSome then t
  else if config.hasIdleTimeout then
    { t with disposed := true, idleTimer := false, disposal := some .draining }
  else { t.disposePool 0 with disposed := true, disposal := some (.disposing 0) }

/-- The transitions have ended, and none begins after that. -/
def drained : Option ExpressionEvaluator :=
  if t.disposal = some .draining ∧ t.pendingScaleUp = none ∧ t.pendingScaleDown = none then
    match t.innerPool with
    | some k =>
      some { t.disposePool k with innerPool := none, disposal := some (.disposing k) }
    | none => some { t with disposal := some .settled }
  else none

def next : Event → Option ExpressionEvaluator
  | .acquire caller => some (t.acquire config caller)
  | .evaluate caller initialized dies => some (t.evaluate config caller initialized dies)
  | .release caller => some (t.release config caller)
  | .coldStarted b initialized => t.coldStarted b initialized
  | .replenished k b initialized => t.replenished k b initialized
  | .retry k i => t.retry config k i
  | .released k => t.released config k
  | .idle => if t.idleTimer then some { t with idleTimer := false }.triggerScaleDown else none
  | .initialized k b initialized =>
    if b ∈ (t.pools k).initializing ∧ (t.bridges b).creation = .initializing then
      some (t.endCreation b initialized)
    else none
  | .scaledUp => t.scaledUp config
  | .scaleUpFinished => t.scaleUpFinished
  | .poolDisposed k => t.poolDisposed k
  | .scaledDown => t.scaledDown
  | .dispose => some (t.dispose config)
  | .drained => t.drained
  | .disposed =>
    match t.disposal with
    | some (.disposing k) =>
      if (t.pools k).settled then some { t with disposal := some .settled } else none
    | _ => none

end Operations

end ExpressionEvaluator

def expressionEvaluator (config : EvaluatorConfig) :
    Transition.System ExpressionEvaluator Event where
  init t := ∃ outcomes, outcomes.length = config.poolSize ∧ true ∈ outcomes ∧
    t = .initial config outcomes
  step t e u := t.next config e = some u

end N8n.ExpressionRuntime
