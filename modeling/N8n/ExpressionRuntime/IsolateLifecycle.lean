import N8n.ExpressionRuntime.IsolateCustody

/-!
# Pools of isolates along a run

Pools are made, scaled and disposed while callers take bridges from them and give them up. A pool
that is neither the current one nor on its way up or down is empty, so that nothing is left once the
evaluator is disposed.

## Main definitions

* `ExpressionEvaluator.IsProper`: what is promised of bridges, pools and the idle timer
* `ExpressionEvaluator.Slip`: a caller acquires again while it waits for a bridge, or the idle timer
  fires while the pool is scaled
* `ExpressionEvaluator.Wired`, `ExpressionEvaluator.Sound`: the invariant

## Main results

* `isolates_run`: runs without a slip keep the promise
* `not_proper`: a pool that is scaled down keeps its bridges for some time, and the two slips
-/

namespace N8n.ExpressionRuntime

open Custody

namespace ExpressionEvaluator

variable {config : EvaluatorConfig} {t u : ExpressionEvaluator} {k b c : ℕ} {q : IsolatePool}

/-! ## What is promised -/

/-- A pool is the current one, or its start or its disposal is under way. -/
def IsOpen (t : ExpressionEvaluator) (k : ℕ) : Prop :=
  t.innerPool = some k ∨ t.pendingScaleUp = some (.initializing k) ∨
    t.pendingScaleUp = some (.disposing k) ∨ t.pendingScaleDown = some k ∨
      t.disposal = some (.disposing k)

/-- Bridges that are alive are in one place, and warm only in open pools. Pools keep to their size,
and are watched by the idle timer. Nothing is left when the evaluator is disposed and no caller has
or awaits a bridge. -/
structure IsProper (config : EvaluatorConfig) (t : ExpressionEvaluator) : Prop where
  place : ∀ b, t.IsAlive b → ∃! place, t.At b place
  warm : ∀ b k, b ∈ (t.pools k).bridges → t.IsOpen k
  capacity : ∀ k, (t.pools k).bridges.length + (t.pools k).warming +
    (t.pools k).initializing.length ≤ config.poolSize
  warming : ∀ k, (t.pools k).replenishPromises.length ≤ (t.pools k).warming
  disposed : t.disposal = some .settled → (∀ c, t.bridgesByCaller c = none) → t.coldStarts = [] →
    ∀ b, ¬ t.IsAlive b
  idle : config.hasIdleTimeout = true → t.innerPool ≠ none → t.disposed = false →
    t.idleTimer = true ∨ t.pendingScaleUp ≠ none ∨ t.pendingScaleDown ≠ none

/-- A caller acquires again while it waits for a bridge. Or the idle timer fires while a pool is
scaled up or down, and there is an inner pool. -/
def Slip (t : ExpressionEvaluator) : Event → Prop
  | .acquire c => t.disposed = false ∧ ∃ b, (c, b) ∈ t.coldStarts
  | .idle => t.innerPool ≠ none ∧ t.disposed = false ∧
      (t.pendingScaleUp ≠ none ∨ t.pendingScaleDown ≠ none)
  | .evaluate _ _ _ | .release _ | .coldStarted _ _ | .replenished _ _ _ | .retry _ _ | .released _
  | .initialized _ _ _ | .scaledUp | .scaleUpFinished | .poolDisposed _ | .scaledDown | .dispose
  | .drained | .disposed => False

/-! ## Pools and callers -/

namespace IsOpen

theorem inner (h : t.innerPool = some k) : t.IsOpen k := .inl h

theorem starting (h : t.pendingScaleUp = some (.initializing k)) : t.IsOpen k := .inr (.inl h)

theorem failing (h : t.pendingScaleUp = some (.disposing k)) : t.IsOpen k := .inr (.inr (.inl h))

theorem down (h : t.pendingScaleDown = some k) : t.IsOpen k := .inr (.inr (.inr (.inl h)))

theorem closing (h : t.disposal = some (.disposing k)) : t.IsOpen k := .inr (.inr (.inr (.inr h)))

theorem elim {p : Prop} (h : t.IsOpen k) (inner : t.innerPool = some k → p)
    (starting : t.pendingScaleUp = some (.initializing k) → p)
    (failing : t.pendingScaleUp = some (.disposing k) → p)
    (down : t.pendingScaleDown = some k → p)
    (closing : t.disposal = some (.disposing k) → p) : p := by
  obtain h | h | h | h | h := h
  exacts [inner h, starting h, failing h, down h, closing h]

end IsOpen

/-- The counters of a pool. One that is initialized is used by nobody, and one that is disposed has
nothing left. -/
structure PoolWired (config : EvaluatorConfig) (pool : IsolatePool) : Prop where
  nodup : pool.bridges.Nodup ∧ pool.initializing.Nodup
  warming : pool.replenishPromises.length ≤ pool.warming
  capacity : pool.bridges.length + pool.warming + pool.initializing.length ≤ config.poolSize
  initializing : pool.initializing ≠ [] →
    pool.replenishPromises = [] ∧ pool.retryTimers = [] ∧ pool.releasing = 0 ∧ pool.disposed = false
  settled : pool.settled = true → pool.disposed = true ∧ pool.bridges = [] ∧
    pool.replenishPromises = [] ∧ pool.initializing = []

structure Quiet (pool : IsolatePool) : Prop where
  bridges : pool.bridges = []
  replenishPromises : pool.replenishPromises = []
  initializing : pool.initializing = []
  disposed : pool.disposed = true ∨ pool.retryTimers = [] ∧ pool.releasing = 0

/-- Pools, callers and the idle timer. -/
structure Wired (config : EvaluatorConfig) (t : ExpressionEvaluator) : Prop where
  pools : ∀ k, PoolWired config (t.pools k)
  openPools : ∀ k, t.IsOpen k → k < t.poolCount
  quiet : ∀ k, ¬ t.IsOpen k → Quiet (t.pools k)
  initializing : ∀ k, (t.pools k).initializing ≠ [] → t.pendingScaleUp = some (.initializing k)
  innerPool : ∀ k, t.innerPool = some k → (t.pools k).initializing = []
  scaling : ∀ k, t.pendingScaleUp = some (.initializing k) → t.innerPool = none
  coldStarts : ∀ c b, (c, b) ∈ t.coldStarts →
    t.bridgesByCaller c = none ∧ ∀ b', (c, b') ∈ t.coldStarts → b' = b
  lazyScopes : config.lazyAcquire = false → t.lazyScopes = ∅
  eager : config.lazyAcquire = true → t.coldStarts = []
  idle : config.hasIdleTimeout = true → t.innerPool ≠ none → t.disposed = false →
    t.idleTimer = true
  disposal : t.disposal ≠ none → t.disposed = true
  closing : config.hasIdleTimeout = true → t.disposal ≠ none → t.disposal ≠ some .draining →
    t.innerPool = none ∧ t.pendingScaleUp = none ∧ t.pendingScaleDown = none
  plain : config.hasIdleTimeout = false → t.innerPool = some 0 ∧ t.pendingScaleUp = none ∧
    t.pendingScaleDown = none ∧ t.idleTimer = false ∧
      (t.disposal = none ∨ t.disposal = some (.disposing 0) ∨
        t.disposal = some .settled ∧ (t.pools 0).settled = true)

theorem Quiet.not_has (h : Quiet q) (part : Part) : ¬ q.Has b part := by
  cases part with
  | warm =>
    show b ∉ q.bridges
    rw [h.bridges]
    exact List.not_mem_nil
  | replenishing =>
    show b ∉ q.replenishPromises.map Prod.fst
    rw [h.replenishPromises]
    exact List.not_mem_nil
  | initializing => exact IsolatePool.not_has_initializing h.initializing

/-- A pool that is disposed to the end is quiet. -/
theorem PoolWired.quiet (h : PoolWired config q) (hsettled : q.settled = true) :
    Quiet q := by
  obtain ⟨hdisposed, hbridges, hpromises, hinitializing⟩ := h.settled hsettled
  exact ⟨hbridges, hpromises, hinitializing, .inl hdisposed⟩

/-- The bridges themselves do not matter. -/
theorem Wired.of_bridges (h : Wired config t) (bridges : ℕ → RuntimeBridge) (n : ℕ) :
    Wired config { t with bridges := bridges, bridgeCount := n } :=
  ⟨h.pools, h.openPools, h.quiet, h.initializing, h.innerPool, h.scaling, h.coldStarts,
    h.lazyScopes, h.eager, h.idle, h.disposal, h.closing, h.plain⟩

theorem Wired.setPool (h : Wired config t) (hpool : PoolWired config q)
    (hinit : q.initializing ≠ [] → (t.pools k).initializing ≠ [])
    (hquiet : ¬ t.IsOpen k → Quiet q)
    (hsettled : (t.pools k).settled = true → q.settled = true) :
    (t.setPool k q).Wired config := by
  have hself : (t.setPool k q).pools k = q := pools_setPool ..
  have hne : ∀ j, j ≠ k → (t.setPool k q).pools j = t.pools j := fun j hj =>
    pools_setPool_of_ne t hj q
  refine ⟨fun j => ?_, h.openPools, fun j hj => ?_, fun j hj => ?_, fun j hj => ?_, h.scaling,
    h.coldStarts, h.lazyScopes, h.eager, h.idle, h.disposal, h.closing, fun hplain => ?_⟩
  · by_cases heq : j = k
    · rw [heq, hself]
      exact hpool
    · rw [hne j heq]
      exact h.pools j
  · by_cases heq : j = k
    · rw [heq, hself]
      exact hquiet (heq ▸ hj)
    · rw [hne j heq]
      exact h.quiet j hj
  · by_cases heq : j = k
    · rw [heq, hself] at hj
      exact heq ▸ h.initializing k (hinit hj)
    · rw [hne j heq] at hj
      exact h.initializing j hj
  · by_cases heq : j = k
    · rw [heq, hself]
      by_contra hnil
      exact hinit hnil (h.innerPool k (heq ▸ hj))
    · rw [hne j heq]
      exact h.innerPool j hj
  · obtain ⟨hinner, hup, hdown, htimer, hdisposal⟩ := h.plain hplain
    refine ⟨hinner, hup, hdown, htimer, hdisposal.imp_right (Or.imp_right ?_)⟩
    rintro ⟨hclosed, hdone⟩
    refine ⟨hclosed, ?_⟩
    by_cases heq : 0 = k
    · rw [heq, hself]
      exact hsettled (heq ▸ hdone)
    · rw [hne 0 heq]
      exact hdone

/-- The invariant. -/
structure Sound (config : EvaluatorConfig) (t : ExpressionEvaluator) : Prop where
  located : t.Located
  wired : Wired config t

theorem Sound.disposeBridge (h : t.Sound config) : (t.disposeBridge b).Sound config :=
  ⟨h.located.disposeBridge, h.wired.of_bridges _ _⟩

/-- A pool that is used, and not initialized any more. -/
theorem Sound.replenish (h : t.Sound config) {attempt : ℕ} (hinit : (t.pools k).initializing = [])
    (hopen : (t.pools k).disposed = false → t.IsOpen k) :
    (t.replenish config k attempt).Sound config := by
  refine ⟨h.located.replenish, ?_⟩
  unfold ExpressionEvaluator.replenish
  dsimp only
  split_ifs with hdisposed hfull
  · exact h.wired
  · exact h.wired
  · have hpool := h.wired.pools k
    have hset : (t.setPool k { t.pools k with
        warming := (t.pools k).warming + 1
        replenishPromises := (t.pools k).replenishPromises ++ [(t.bridgeCount, attempt)] }).Wired
          config := by
      refine h.wired.setPool ⟨hpool.nodup, ?_, ?_, fun hne => absurd hinit hne, fun hsettled => ?_⟩
        id (fun hnot => ?_) id
      · simpa using hpool.warming
      · simp only [hinit, List.length_nil]
        omega
      · exact absurd (hpool.settled hsettled).1 hdisposed
      · exact absurd (hopen (Bool.eq_false_iff.mpr hdisposed)) hnot
    exact hset.of_bridges _ _

theorem Wired.isOpen_of_not_quiet (h : Wired config t) (hnot : ¬ Quiet (t.pools k)) :
    t.IsOpen k := by
  by_contra hopen
  exact hnot (h.quiet k hopen)

/-- A pool whose timer has fired, or that has let a bridge go, is used and not initialized. -/
theorem Sound.resume (h : t.Sound config) {timers : List ℕ} {releasing attempt : ℕ}
    (hused : ¬ ((t.pools k).retryTimers = [] ∧ (t.pools k).releasing = 0)) :
    ((t.setPool k { t.pools k with
      retryTimers := timers
      releasing := releasing }).replenish config k attempt).Sound config := by
  have hpool := h.wired.pools k
  have hinit : (t.pools k).initializing = [] := by
    by_contra hnot
    obtain ⟨-, htimers, hreleasing, -⟩ := hpool.initializing hnot
    exact hused ⟨htimers, hreleasing⟩
  have hset : (t.setPool k { t.pools k with
      retryTimers := timers
      releasing := releasing }).Sound config := by
    refine ⟨h.located.setPool rfl, h.wired.setPool ⟨hpool.nodup, hpool.warming, hpool.capacity,
      fun hnot => absurd hinit hnot, hpool.settled⟩ id (fun hopen => ?_) id⟩
    have hquiet := h.wired.quiet k hopen
    exact ⟨hquiet.bridges, hquiet.replenishPromises, hquiet.initializing,
      .inl (hquiet.disposed.resolve_right hused)⟩
  refine hset.replenish ((congrArg _ (pools_setPool ..)).trans hinit) fun hdisposed => ?_
  rw [pools_setPool] at hdisposed
  refine h.wired.isOpen_of_not_quiet fun hquiet => ?_
  cases (hquiet.disposed.resolve_right hused).symm.trans hdisposed

theorem Sound.retry (h : t.Sound config) {i : ℕ} (hs : t.retry config k i = some u) :
    u.Sound config := by
  obtain ⟨attempt, hattempt, rfl⟩ := Option.map_eq_some_iff.mp hs
  exact h.resume fun hnone => List.ne_nil_of_mem (List.mem_of_getElem? hattempt) hnone.1

theorem Sound.released (h : t.Sound config) (hs : t.released config k = some u) :
    u.Sound config := by
  unfold ExpressionEvaluator.released at hs
  split_ifs at hs with hpos
  cases hs
  exact h.resume fun hnone => hpos.ne' hnone.2

/-! ## Acquisition -/

/-- Only the timer and what the callers have is changed. -/
theorem Wired.callers (h : Wired config t) {timer : Bool} {callers : ℕ → Option ℕ}
    {scopes : Finset ℕ} {starts : List (ℕ × ℕ)}
    (htimer : config.hasIdleTimeout = true → t.innerPool ≠ none → t.disposed = false → timer = true)
    (hplain : config.hasIdleTimeout = false → timer = false)
    (hstarts : ∀ c b, (c, b) ∈ starts → callers c = none ∧ ∀ b', (c, b') ∈ starts → b' = b)
    (hscopes : config.lazyAcquire = false → scopes = ∅)
    (heager : config.lazyAcquire = true → starts = []) :
    Wired config { t with
      idleTimer := timer
      bridgesByCaller := callers
      lazyScopes := scopes
      coldStarts := starts } :=
  ⟨h.pools, h.openPools, h.quiet, h.initializing, h.innerPool, h.scaling, hstarts, hscopes, heager,
    htimer, h.disposal, h.closing, fun hnot =>
      have ⟨hinner, hup, hdown, _, hdisposal⟩ := h.plain hnot
      ⟨hinner, hup, hdown, hplain hnot, hdisposal⟩⟩

theorem Sound.resetIdleTimer (h : t.Sound config) : (t.resetIdleTimer config).Sound config := by
  unfold ExpressionEvaluator.resetIdleTimer
  split_ifs with htimeout
  · refine ⟨h.located.same rfl le_rfl fun _ => id, h.wired.callers (fun _ _ _ => rfl)
      (fun hnot => ?_) h.wired.coldStarts h.wired.lazyScopes h.wired.eager⟩
    cases htimeout.symm.trans hnot
  · exact h

theorem Sound.triggerScaleUp (h : t.Sound config) (htimeout : config.hasIdleTimeout = true) :
    (t.triggerScaleUp config).Sound config := by
  unfold ExpressionEvaluator.triggerScaleUp
  split_ifs with hguard
  · exact h
  · have hup : t.pendingScaleUp = none := by simp at hguard; exact hguard.1.1
    have hinner : t.innerPool = none := by simp at hguard; exact hguard.1.2
    have hdisposed : t.disposed = false := by simp at hguard; exact hguard.2
    have hdisposal : t.disposal = none := by
      by_contra hnot
      exact absurd (h.wired.disposal hnot) (hdisposed ▸ nofun)
    have hclosed : ¬ t.IsOpen t.poolCount := fun hopen => (h.wired.openPools _ hopen).false
    have hquiet := h.wired.quiet _ hclosed
    refine ⟨h.located.create (k := t.poolCount) (n := config.poolSize) (fun _ => hquiet.not_has) rfl
      rfl rfl, ?_⟩
    have hself := pools_setPool t t.poolCount { IsolatePool.empty with
      initializing := List.range' t.bridgeCount config.poolSize }
    have hne : ∀ j, j ≠ t.poolCount → (t.setPool t.poolCount { IsolatePool.empty with
        initializing := List.range' t.bridgeCount config.poolSize }).pools j = t.pools j :=
      fun j hj => pools_setPool_of_ne t hj _
    refine ⟨fun j => ?_, fun j hj => ?_, fun j hj => ?_, fun j hj => ?_, fun j hj => ?_,
      fun _ _ => hinner, h.wired.coldStarts, h.wired.lazyScopes, h.wired.eager,
      fun _ hnot => absurd hinner hnot, h.wired.disposal,
      fun _ hnot => absurd hdisposal hnot, fun hnot => ?_⟩
    · show PoolWired config ((t.setPool t.poolCount _).pools j)
      by_cases heq : j = t.poolCount
      · rw [heq, hself]
        exact ⟨⟨List.nodup_nil, List.nodup_range'⟩, le_rfl, by simp [IsolatePool.empty],
          fun _ => ⟨rfl, rfl, rfl, rfl⟩, nofun⟩
      · rw [hne j heq]
        exact h.wired.pools j
    · refine hj.elim (nomatch hinner.symm.trans ·) (fun hj => ?_) nofun
        (fun hj => (h.wired.openPools j (.down hj)).trans (Nat.lt_succ_self _))
        (nomatch hdisposal.symm.trans ·)
      obtain rfl := ScaleUp.initializing.inj (Option.some.inj hj)
      exact Nat.lt_succ_self _
    · show Quiet ((t.setPool t.poolCount _).pools j)
      have heq : j ≠ t.poolCount := by
        rintro rfl
        exact hj (.inr (.inl rfl))
      rw [hne j heq]
      refine h.wired.quiet j fun hopen => hj ?_
      exact hopen.elim (.inner ·) (nomatch hup.symm.trans ·) (nomatch hup.symm.trans ·) (.down ·)
        (.closing ·)
    · show some (ScaleUp.initializing t.poolCount) = _
      have hj' : ((t.setPool t.poolCount { IsolatePool.empty with
          initializing := List.range' t.bridgeCount config.poolSize }).pools j).initializing ≠ [] :=
        hj
      by_cases heq : j = t.poolCount
      · rw [heq]
      · rw [hne j heq] at hj'
        cases hup.symm.trans (h.wired.initializing j hj')
    · cases hinner.symm.trans hj
    · cases htimeout.symm.trans hnot

/-- The caller has a bridge now, and does not wait for one. -/
theorem Wired.hold (h : Wired config t) (hc : ∀ b', (c, b') ∉ t.coldStarts) :
    (t.hold c b).Wired config := by
  refine h.callers h.idle (fun hnot => (h.plain hnot).2.2.2.1) (fun c' b' hmem => ?_) h.lazyScopes
    h.eager
  obtain ⟨hnone, hone⟩ := h.coldStarts c' b' hmem
  refine ⟨?_, hone⟩
  have hne : c' ≠ c := by
    rintro rfl
    exact hc b' hmem
  exact (Function.update_of_ne hne ..).trans hnone

section Sound

variable (h : t.Sound config)
include h

theorem Sound.acquireFrom (hinner : t.innerPool = some k) (hc : t.bridgesByCaller c = none)
    (hstarts : ∀ b', (c, b') ∉ t.coldStarts) :
    match t.acquireFrom config k with
    | (u, .bridge b) => (u.hold c b).Sound config
    | (u, .poolExhausted) | (u, .poolDisposed) => u = t := by
  unfold ExpressionEvaluator.acquireFrom
  split_ifs
  · rfl
  · have hpool := h.wired.pools k
    cases hbridges : (t.pools k).bridges with
    | nil => rfl
    | cons b bridges =>
      show ((((t.setPool k { t.pools k with bridges := bridges }).replenish config k 0).hold c
        b).Sound config)
      obtain ⟨hnodup, hnodup'⟩ := hpool.nodup
      have hcapacity := hpool.capacity
      rw [hbridges] at hnodup hcapacity
      have hset : (t.setPool k { t.pools k with bridges := bridges }).Wired config := by
        refine h.wired.setPool ⟨⟨hnodup.of_cons, hnodup'⟩, hpool.warming, ?_, hpool.initializing,
          fun hsettled => ?_⟩ id (fun hopen => absurd (.inl hinner) hopen) id
        · exact (Nat.add_le_add_right (Nat.add_le_add_right (Nat.le_succ _) _) _).trans hcapacity
        · have hnil := (hpool.settled hsettled).2.1
          cases hbridges.symm.trans hnil
      have htake : ((t.setPool k { t.pools k with bridges := bridges }).hold c b).Sound config :=
        ⟨h.located.take hpool.nodup.1 hbridges hc, hset.hold hstarts⟩
      have hinit : (((t.setPool k { t.pools k with bridges := bridges }).hold c
          b).pools k).initializing = [] := by
        show ((t.setPool k { t.pools k with bridges := bridges }).pools k).initializing = []
        rw [pools_setPool]
        exact h.wired.innerPool k hinner
      -- the replacement does not depend on who has the bridge
      have hcomm : ((t.setPool k { t.pools k with bridges := bridges }).replenish config k 0).hold
          c b =
          ((t.setPool k { t.pools k with bridges := bridges }).hold c b).replenish config k 0 := by
        unfold ExpressionEvaluator.replenish
        dsimp only [ExpressionEvaluator.hold]
        split_ifs <;> rfl
      rw [hcomm]
      exact htake.replenish hinit fun _ => .inl hinner

theorem Sound.acquirePool (hc : t.bridgesByCaller c = none)
    (hstarts : ∀ b', (c, b') ∉ t.coldStarts) :
    match t.acquirePool config with
    | (u, .bridge b) => (u.hold c b).Sound config
    | (u, .poolExhausted) | (u, .poolDisposed) => u.Sound config ∧
        u.bridgesByCaller = t.bridgesByCaller ∧ u.coldStarts = t.coldStarts := by
  unfold ExpressionEvaluator.acquirePool
  split_ifs
  · exact ⟨h, rfl, rfl⟩
  · cases hinner : t.innerPool with
    | none =>
      have htimeout : config.hasIdleTimeout = true := by
        by_contra hnot
        have hsome := (h.wired.plain (Bool.eq_false_iff.mpr hnot)).1
        cases hinner.symm.trans hsome
      refine ⟨h.triggerScaleUp htimeout, ?_, ?_⟩
      all_goals
        unfold ExpressionEvaluator.triggerScaleUp
        split_ifs <;> rfl
    | some k =>
      have hsame : (t.resetIdleTimer config).innerPool = t.innerPool ∧
          (t.resetIdleTimer config).bridgesByCaller = t.bridgesByCaller ∧
          (t.resetIdleTimer config).coldStarts = t.coldStarts := by
        unfold ExpressionEvaluator.resetIdleTimer
        split_ifs <;> exact ⟨rfl, rfl, rfl⟩
      obtain ⟨hinner', hcallers, hcold⟩ := hsame
      have hacquired := h.resetIdleTimer.acquireFrom (c := c) (hinner'.trans hinner)
        ((congrFun hcallers c).trans hc) (fun b' => hcold ▸ hstarts b')
      dsimp only
      split at hacquired
      · exact hacquired
      · rw [hacquired]
        exact ⟨h.resetIdleTimer, hcallers, hcold⟩
      · rw [hacquired]
        exact ⟨h.resetIdleTimer, hcallers, hcold⟩

theorem Sound.acquire (hslip : ¬ t.Slip (.acquire c)) : (t.acquire config c).Sound config := by
  unfold ExpressionEvaluator.acquire
  split_ifs with hdisposed hheld hlazy
  · exact h
  · exact h
  · refine ⟨h.located.same rfl le_rfl fun _ => id, h.wired.callers h.wired.idle
      (fun hnot => (h.wired.plain hnot).2.2.2.1) h.wired.coldStarts (fun hnot => ?_) h.wired.eager⟩
    cases hlazy.symm.trans hnot
  · have hc : t.bridgesByCaller c = none := by simpa using hheld
    have hstarts : ∀ b', (c, b') ∉ t.coldStarts := fun b' hmem =>
      hslip ⟨Bool.eq_false_iff.mpr hdisposed, b', hmem⟩
    have hacquired := h.acquirePool hc hstarts
    split
    · next heq =>
      rw [heq] at hacquired
      exact hacquired
    · next u heq =>
      rw [heq] at hacquired
      obtain ⟨hsound, hcallers, hcold⟩ := hacquired
      refine ⟨hsound.located.coldStart, ?_⟩
      have hwired : Wired config { u with coldStarts := u.coldStarts ++ [(c, u.bridgeCount)] } := by
        refine hsound.wired.callers hsound.wired.idle
          (fun hnot => (hsound.wired.plain hnot).2.2.2.1) (fun c' b hmem => ?_)
          hsound.wired.lazyScopes fun hyes => absurd hyes hlazy
        have hnone : ∀ b', (c, b') ∉ u.coldStarts := fun b' => hcold ▸ hstarts b'
        obtain hold | hnew := List.mem_append.mp hmem
        · have hne : c' ≠ c := by
            rintro rfl
            exact hnone b hold
          obtain ⟨hfree, hone⟩ := hsound.wired.coldStarts c' b hold
          refine ⟨hfree, fun b' hmem' => ?_⟩
          obtain hold' | hnew' := List.mem_append.mp hmem'
          · exact hone b' hold'
          · exact absurd (Prod.mk.inj (List.mem_singleton.mp hnew')).1 hne
        · obtain ⟨rfl, rfl⟩ := Prod.mk.inj (List.mem_singleton.mp hnew)
          refine ⟨(congrFun hcallers c').trans hc, fun b' hmem' => ?_⟩
          obtain hold' | hnew' := List.mem_append.mp hmem'
          · exact absurd hold' (hnone b')
          · exact (Prod.mk.inj (List.mem_singleton.mp hnew')).2
      exact hwired.of_bridges _ _
    · next heq =>
      rw [heq] at hacquired
      exact hacquired.1

/-- A lazy scope has no bridge under creation. -/
theorem Sound.getBridge {initialized : Bool} : (t.getBridge config c initialized).Sound config := by
  unfold ExpressionEvaluator.getBridge
  by_cases hguard : t.bridgesByCaller c = none ∧ c ∈ t.lazyScopes
  · rw [if_pos hguard]
    obtain ⟨hc, hscope⟩ := hguard
    have hlazy : config.lazyAcquire = true := by
      by_contra hnot
      rw [h.wired.lazyScopes (Bool.eq_false_iff.mpr hnot)] at hscope
      exact absurd hscope (Finset.notMem_empty c)
    have hnil := h.wired.eager hlazy
    have hacquired := h.acquirePool hc fun b' => hnil ▸ List.not_mem_nil
    split
    · next heq =>
      rw [heq] at hacquired
      exact hacquired
    · next u heq =>
      rw [heq] at hacquired
      obtain ⟨hsound, hcallers, hcold⟩ := hacquired
      have hc' : u.bridgesByCaller c = none := (congrFun hcallers c).trans hc
      have hstarts : ∀ b', (c, b') ∉ u.coldStarts := by
        rw [hcold, hnil]
        exact fun b' => List.not_mem_nil
      dsimp only
      cases initialized with
      | true => exact ⟨hsound.located.createSync hc', (hsound.wired.hold hstarts).of_bridges _ _⟩
      | false =>
        refine ⟨hsound.located.same rfl (Nat.le_succ _) fun b halive => ?_,
          hsound.wired.of_bridges _ _⟩
        obtain ⟨hmade, hdisposed, hcreation⟩ := halive
        by_cases heq : b = u.bridgeCount
        · subst heq
          simp [ExpressionEvaluator.disposeBridge, setBridge] at hdisposed
        · have hbridge : (({ u.endCreation u.bridgeCount false with
              bridgeCount := u.bridgeCount + 1 }).disposeBridge u.bridgeCount).bridges b =
              u.bridges b := by
            simp [ExpressionEvaluator.disposeBridge, endCreation, setBridge, heq]
          exact ⟨Nat.lt_of_le_of_ne (Nat.le_of_lt_succ hmade) heq, hbridge ▸ hdisposed,
            hbridge ▸ hcreation⟩
    · next heq =>
      rw [heq] at hacquired
      exact hacquired.1
  · rw [if_neg hguard]
    exact h

theorem Sound.evaluate {initialized dies : Bool} :
    (t.evaluate config c initialized dies).Sound config := by
  unfold ExpressionEvaluator.evaluate
  dsimp only
  split_ifs
  · exact h
  · split
    · exact h.getBridge.disposeBridge
    · exact h.getBridge
  · split
    · exact h.getBridge
    · exact h.getBridge

/-- A caller gives up its bridge, and a pool replaces it. -/
theorem Sound.releasePool {scopes : Finset ℕ} (hscopes : config.lazyAcquire = false → scopes = ∅)
    (hheld : t.bridgesByCaller c = some b) :
    Sound config (({ t with
      lazyScopes := scopes
      bridgesByCaller := Function.update t.bridgesByCaller c none } :
        ExpressionEvaluator).releasePool config b) := by
  have hwired : Wired config { t with
      lazyScopes := scopes
      bridgesByCaller := Function.update t.bridgesByCaller c none } := by
    refine h.wired.callers h.wired.idle (fun hnot => (h.wired.plain hnot).2.2.2.1)
      (fun c' b' hmem => ?_) hscopes h.wired.eager
    obtain ⟨hnone, hone⟩ := h.wired.coldStarts c' b' hmem
    refine ⟨?_, hone⟩
    by_cases heq : c' = c
    · rw [heq]
      exact Function.update_self ..
    · exact (Function.update_of_ne heq ..).trans hnone
  have hdispose : Sound config (({ t with
      lazyScopes := scopes
      bridgesByCaller := Function.update t.bridgesByCaller c none } :
        ExpressionEvaluator).disposeBridge b) := by
    refine ⟨h.located.giveUp hheld (fun b' hb' => Function.update_of_ne hb' ..) ?_ rfl
      (fun _ => rfl) rfl rfl, hwired.of_bridges _ _⟩
    simp [ExpressionEvaluator.disposeBridge, setBridge]
  unfold ExpressionEvaluator.releasePool
  split
  · next k hinner =>
    have hinit := h.wired.innerPool k hinner
    have hpool := h.wired.pools k
    split_ifs
    · exact hdispose
    · unfold ExpressionEvaluator.releaseTo
      split_ifs with hdisposed
      · have hgone : Sound config { t with
            lazyScopes := scopes
            bridgesByCaller := Function.update t.bridgesByCaller c none } :=
          ⟨h.located.giveUp hheld (fun _ _ => rfl) hdisposed rfl (fun _ => rfl) rfl rfl, hwired⟩
        exact hgone.replenish hinit fun _ => .inl hinner
      · have hset := hdispose.wired.setPool (k := k)
          (q := { t.pools k with releasing := (t.pools k).releasing + 1 })
          ⟨hpool.nodup, hpool.warming, hpool.capacity, fun hnot => absurd hinit hnot, hpool.settled⟩
          id (fun hopen => absurd (.inl hinner) hopen) id
        exact ⟨hdispose.located.setPool rfl, hset⟩
  · exact hdispose

theorem Sound.release : (t.release config c).Sound config := by
  have hscopes : config.lazyAcquire = false → t.lazyScopes.erase c = ∅ := by
    intro hnot
    rw [h.wired.lazyScopes hnot]
    rfl
  unfold ExpressionEvaluator.release
  dsimp only
  split
  · exact ⟨h.located.same rfl le_rfl fun _ => id, h.wired.callers h.wired.idle
      (fun hnot => (h.wired.plain hnot).2.2.2.1) h.wired.coldStarts hscopes h.wired.eager⟩
  · next hheld => exact h.releasePool hscopes hheld

theorem Sound.coldStarted {initialized : Bool} (hs : t.coldStarted b initialized = some u) :
    u.Sound config := by
  obtain ⟨⟨c, b'⟩, hfind, rfl⟩ := Option.map_eq_some_iff.mp hs
  obtain rfl : b' = b := by simpa using List.find?_some hfind
  have hmem : (c, b') ∈ t.coldStarts := List.mem_of_find?_eq_some hfind
  obtain ⟨hc, hone⟩ := h.wired.coldStarts c b' hmem
  have hwired : Wired config { t with coldStarts := t.coldStarts.filter (·.2 ≠ b') } := by
    refine h.wired.callers h.wired.idle (fun hnot => (h.wired.plain hnot).2.2.2.1)
      (fun c₁ b₁ hmem₁ => ?_) h.wired.lazyScopes fun hyes => ?_
    · obtain ⟨hnone, hone₁⟩ := h.wired.coldStarts c₁ b₁ (List.mem_filter.mp hmem₁).1
      exact ⟨hnone, fun b₂ hmem₂ => hone₁ b₂ (List.mem_filter.mp hmem₂).1⟩
    · rw [h.wired.eager hyes]
      rfl
  dsimp only
  split_ifs with hinit
  · subst hinit
    refine ⟨h.located.coldStarted hmem hc, ?_⟩
    have hhold : (hold { t with coldStarts := t.coldStarts.filter (·.2 ≠ b') } c b').Wired
        config := by
      refine hwired.hold fun b₁ hmem₁ => ?_
      obtain ⟨hmem₁, hne⟩ := List.mem_filter.mp hmem₁
      exact of_decide_eq_true hne (hone b₁ hmem₁)
    exact hhold.of_bridges _ _
  · obtain rfl := Bool.eq_false_iff.mpr hinit
    exact ⟨h.located.coldStartFailed hmem, hwired.of_bridges _ _⟩

/-! ## Pools that are replenished, scaled and disposed -/

theorem Sound.replenished {initialized : Bool} (hs : t.replenished k b initialized = some u) :
    u.Sound config := by
  refine ⟨h.located.replenished hs, ?_⟩
  obtain ⟨promise, hfind, rfl⟩ := Option.map_eq_some_iff.mp hs
  have hpool := h.wired.pools k
  have hmem := List.mem_of_find?_eq_some hfind
  have hb : promise.1 = b := by simpa using List.find?_some hfind
  have hne : (t.pools k).replenishPromises ≠ [] := List.ne_nil_of_mem hmem
  have hinit : (t.pools k).initializing = [] := by
    by_contra hnot
    exact hne (hpool.initializing hnot).1
  have hunsettled : (t.pools k).settled ≠ true := fun hsettled => hne (hpool.settled hsettled).2.2.1
  have hopen : t.IsOpen k := h.wired.isOpen_of_not_quiet fun hquiet => hne hquiet.replenishPromises
  -- one promise at least is gone
  have hfewer : ((t.pools k).replenishPromises.filter (·.1 ≠ b)).length ≤
      (t.pools k).warming - 1 := by
    have hlt : ((t.pools k).replenishPromises.filter (·.1 ≠ b)).length <
        (t.pools k).replenishPromises.length := by
      refine List.length_filter_lt_length_iff_exists.mpr ⟨promise, hmem, ?_⟩
      simp [hb]
    have hwarming := hpool.warming
    omega
  have hpos : 0 < (t.pools k).warming :=
    (List.length_pos_of_mem hmem).trans_le hpool.warming
  have hnotwarm : b ∉ (t.pools k).bridges := fun hwarm =>
    nomatch h.located.exclusive (p := .pool k .warm) (q := .pool k .replenishing) hwarm
      (List.mem_map.mpr ⟨promise, hmem, hb⟩)
  have hcapacity := hpool.capacity
  have hset : ∀ bridges : List ℕ, ∀ timers, bridges.Nodup →
      bridges.length ≤ (t.pools k).bridges.length + 1 →
      Wired config (t.setPool k { t.pools k with
        bridges := bridges
        retryTimers := timers
        warming := (t.pools k).warming - 1
        replenishPromises := (t.pools k).replenishPromises.filter (·.1 ≠ b) }) := by
    intro bridges timers hnodup hlength
    refine h.wired.setPool ⟨⟨hnodup, hpool.nodup.2⟩, hfewer, ?_, fun hnot => absurd hinit hnot,
      fun hsettled => absurd hsettled hunsettled⟩ id (fun hnot => absurd hopen hnot) id
    dsimp only
    omega
  dsimp only
  split_ifs
  · exact (hset _ _ hpool.nodup.1 (Nat.le_succ _)).of_bridges _ _
  · refine (hset _ _ ?_ (List.length_append ..).le).of_bridges _ _
    exact List.nodup_append.mpr ⟨hpool.nodup.1, List.nodup_singleton b, fun b' hb' b'' hb'' => by
      rintro rfl
      exact hnotwarm (List.mem_singleton.mp hb'' ▸ hb')⟩
  · exact (hset _ _ hpool.nodup.1 (Nat.le_succ _)).of_bridges _ _
  · exact (hset _ _ hpool.nodup.1 (Nat.le_succ _)).of_bridges _ _

/-- The start of the disposal of a pool that is not initialized any more. -/
theorem Sound.disposePool (hinit : (t.pools k).initializing = []) :
    (t.disposePool k).Sound config := by
  have hpool := h.wired.pools k
  refine ⟨h.located.setPool rfl, h.wired.setPool ⟨hpool.nodup, hpool.warming, hpool.capacity,
    fun hnot => absurd hinit hnot, fun hsettled => ⟨rfl, (hpool.settled hsettled).2⟩⟩ id
    (fun hopen => ?_) id⟩
  have hquiet := h.wired.quiet k hopen
  exact ⟨hquiet.bridges, hquiet.replenishPromises, hquiet.initializing, .inl rfl⟩

theorem Sound.poolDisposed (hs : t.poolDisposed k = some u) : u.Sound config := by
  refine ⟨h.located.poolDisposed hs, ?_⟩
  unfold ExpressionEvaluator.poolDisposed at hs
  dsimp only at hs
  split_ifs at hs with hguard
  cases hs
  obtain ⟨hdisposed, -, hpromises⟩ := hguard
  have hpool := h.wired.pools k
  have hcapacity := hpool.capacity
  have hinit : (t.pools k).initializing = [] := by
    by_contra hnot
    exact absurd (hdisposed.symm.trans (hpool.initializing hnot).2.2.2) nofun
  have hset : (t.setPool k { t.pools k with bridges := [], settled := true }).Wired config := by
    refine h.wired.setPool ⟨⟨List.nodup_nil, hpool.nodup.2⟩, hpool.warming, ?_,
      fun hnot => absurd hinit hnot, fun _ => ⟨hdisposed, rfl, hpromises, hinit⟩⟩ id
      (fun _ => ⟨rfl, hpromises, hinit, .inl hdisposed⟩) fun _ => rfl
    simp only [List.length_nil]
    omega
  exact hset.of_bridges _ _

end Sound

/-- Pools become the current one, or go, or are scaled. -/
theorem Wired.rewire (h : Wired config t) {inner : Option ℕ} {up : Option ScaleUp}
    {down : Option ℕ} {timer disposed : Bool} {disposal : Option Disposal}
    (hopen : ∀ j, IsOpen { t with
      innerPool := inner, pendingScaleUp := up, pendingScaleDown := down, disposal := disposal } j →
        t.IsOpen j)
    (hclosed : ∀ j, t.IsOpen j → IsOpen { t with
      innerPool := inner, pendingScaleUp := up, pendingScaleDown := down, disposal := disposal } j ∨
        Quiet (t.pools j))
    (hinit : ∀ j, (t.pools j).initializing ≠ [] → up = some (.initializing j))
    (hinner : ∀ j, inner = some j → (t.pools j).initializing = [])
    (hscaling : ∀ j, up = some (.initializing j) → inner = none)
    (hidle : config.hasIdleTimeout = true → inner ≠ none → disposed = false → timer = true)
    (hdisposed : disposal ≠ none → disposed = true)
    (hclosing : config.hasIdleTimeout = true → disposal ≠ none → disposal ≠ some .draining →
      inner = none ∧ up = none ∧ down = none)
    (hplain : config.hasIdleTimeout = false → inner = some 0 ∧ up = none ∧ down = none ∧
      timer = false ∧ (disposal = none ∨ disposal = some (.disposing 0) ∨
        disposal = some .settled ∧ (t.pools 0).settled = true)) :
    Wired config { t with
      innerPool := inner
      pendingScaleUp := up
      pendingScaleDown := down
      idleTimer := timer
      disposed := disposed
      disposal := disposal } := by
  refine ⟨h.pools, fun j hj => h.openPools j (hopen j hj), fun j hj => ?_, hinit, hinner,
    hscaling, h.coldStarts, h.lazyScopes, h.eager, hidle, hdisposed, hclosing, hplain⟩
  by_cases hold : t.IsOpen j
  · exact (hclosed j hold).resolve_left hj
  · exact h.quiet j hold

section Sound

variable (h : t.Sound config)
include h

/-- The pool stops being the current one, and its disposal begins. -/
theorem Sound.triggerScaleDown (htimer : t.idleTimer = true) (hslip : ¬ t.Slip .idle) :
    Sound config ({ t with idleTimer := false }.triggerScaleDown) := by
  have htimeout : config.hasIdleTimeout = true := by
    by_contra hnot
    have hoff := (h.wired.plain (Bool.eq_false_iff.mpr hnot)).2.2.2.1
    cases htimer.symm.trans hoff
  have hplain : ∀ {p : Prop}, config.hasIdleTimeout = false → p := fun hnot =>
    absurd (htimeout.symm.trans hnot) nofun
  unfold ExpressionEvaluator.triggerScaleDown
  split
  · next hnone =>
    refine ⟨h.located.same rfl le_rfl fun _ => id, h.wired.callers (fun _ hinner => ?_) hplain
      h.wired.coldStarts h.wired.lazyScopes h.wired.eager⟩
    exact absurd hnone hinner
  · next k hinner =>
    replace hinner : t.innerPool = some k := hinner
    split_ifs with hguard
    · refine ⟨h.located.same rfl le_rfl fun _ => id, h.wired.callers (fun _ _ hdisposed => ?_)
        hplain h.wired.coldStarts h.wired.lazyScopes h.wired.eager⟩
      -- a transition is in progress, which is a slip
      refine absurd ⟨hinner ▸ nofun, hdisposed, ?_⟩ hslip
      cases hup : t.pendingScaleUp with
      | some up => exact .inl nofun
      | none =>
        cases hdown : t.pendingScaleDown with
        | some down => exact .inr nofun
        | none => simp [hup, hdown, hdisposed] at hguard
    · have hdown : t.pendingScaleDown = none := by simp at hguard; exact hguard.1.1
      have hup : t.pendingScaleUp = none := by simp at hguard; exact hguard.1.2
      have hdisposed : t.disposed = false := by simp at hguard; exact hguard.2
      have hclosing := h.disposePool (h.wired.innerPool k hinner)
      refine ⟨hclosing.located.same rfl le_rfl fun _ => id, ?_⟩
      refine hclosing.wired.rewire (fun j hj => ?_) (fun j hj => .inl ?_)
        hclosing.wired.initializing nofun (fun _ _ => rfl) (fun _ hnot => absurd rfl hnot)
        hclosing.wired.disposal
        (fun _ hdisposal _ => ?_) hplain
      · exact hj.elim nofun (.starting ·) (.failing ·) (fun hj => .inner (hinner.trans hj))
          (.closing ·)
      · exact hj.elim (fun hj => .down (hinner.symm.trans hj)) (.starting ·) (.failing ·)
          (nomatch hdown.symm.trans ·) (.closing ·)
      · cases hdisposed.symm.trans (h.wired.disposal hdisposal)

/-- A pool that is initialized becomes the current one, or is disposed. -/
theorem Sound.scaledUp (hs : t.scaledUp config = some u) : u.Sound config := by
  unfold ExpressionEvaluator.scaledUp at hs
  split at hs
  · next k hup =>
    dsimp only at hs
    have hpool := h.wired.pools k
    have htimeout : config.hasIdleTimeout = true := by
      by_contra hnot
      cases hup.symm.trans (h.wired.plain (Bool.eq_false_iff.mpr hnot)).2.1
    have hplain : ∀ {p : Prop}, config.hasIdleTimeout = false → p := fun hnot =>
      absurd (htimeout.symm.trans hnot) nofun
    have hclosing : ∀ {p : Prop}, config.hasIdleTimeout = true → t.disposal ≠ none →
        t.disposal ≠ some .draining → p := fun _ hdisposal hdraining =>
      absurd (hup.symm.trans (h.wired.closing htimeout hdisposal hdraining).2.1) nofun
    have hinit : ∀ j, (t.pools j).initializing ≠ [] → j = k := fun j hj =>
      (ScaleUp.initializing.inj (Option.some.inj (hup.symm.trans (h.wired.initializing j hj)))).symm
    by_cases hpending :
        ((t.pools k).initializing.any fun b => (t.bridges b).creation = .initializing) = true
    · rw [if_pos hpending] at hs
      cases hs
    rw [if_neg hpending] at hs
    have hsettled : ∀ b ∈ (t.pools k).initializing, (t.bridges b).creation ≠ .initializing := by
      intro b hb hcreation
      exact hpending (List.any_eq_true.mpr ⟨b, hb, decide_eq_true hcreation⟩)
    -- the pool with the bridges that were created
    let pool : IsolatePool := { t.pools k with
      bridges := (t.pools k).bridges ++
        (t.pools k).initializing.filter fun b => (t.bridges b).creation = .created
      initializing := [] }
    have hset : (t.setPool k pool).Sound config := by
      refine ⟨h.located.initialized rfl rfl rfl rfl rfl rfl hsettled, h.wired.setPool ⟨⟨?_,
        List.nodup_nil⟩, hpool.warming, ?_, fun hnot => absurd rfl hnot, fun hdone => ?_⟩
        (fun hnot => absurd rfl hnot) (fun hopen => absurd (.inr (.inl hup)) hopen) id⟩
      · refine List.nodup_append.mpr ⟨hpool.nodup.1, hpool.nodup.2.filter _, ?_⟩
        rintro b hwarm b' hb' rfl
        exact nomatch h.located.exclusive (p := .pool k .warm) (q := .pool k .initializing) hwarm
          (List.mem_filter.mp hb').1
      · have hfilter := List.length_filter_le
          (fun b => decide ((t.bridges b).creation = .created)) (t.pools k).initializing
        have hcapacity := hpool.capacity
        simp only [pool, List.length_append, List.length_nil]
        omega
      · obtain ⟨hdisposed, hbridges, hpromises, hnil⟩ := hpool.settled hdone
        exact ⟨hdisposed, by simp [pool, hbridges, hnil], hpromises, rfl⟩
    have hnil : ∀ j, ((t.setPool k pool).pools j).initializing = [] := by
      intro j
      by_contra hnot
      by_cases heq : j = k
      · subst heq
        rw [pools_setPool] at hnot
        exact hnot rfl
      · rw [pools_setPool_of_ne t heq] at hnot
        exact heq (hinit j hnot)
    split_ifs at hs
    · cases hs
      have hdispose := hset.disposePool (hnil k)
      have hnil' : ∀ j, (((t.setPool k pool).disposePool k).pools j).initializing = [] := by
        intro j
        by_contra hnot
        have hstart := hdispose.wired.initializing j hnot
        obtain rfl := ScaleUp.initializing.inj (Option.some.inj (hup.symm.trans hstart))
        rw [ExpressionEvaluator.disposePool, pools_setPool, pools_setPool] at hnot
        exact hnot rfl
      refine ⟨hdispose.located.same rfl le_rfl fun _ => id, hdispose.wired.rewire (fun j hj => ?_)
        (fun j hj => .inl ?_) (fun j hj => absurd (hnil' j) hj) (fun j _ => hnil' j)
        nofun hdispose.wired.idle hdispose.wired.disposal hclosing hplain⟩
      · refine hj.elim (.inner ·) nofun (fun hj => ?_) (.down ·) (.closing ·)
        obtain rfl := ScaleUp.disposing.inj (Option.some.inj hj)
        exact .starting hup
      · refine hj.elim (.inner ·) (fun hj => ?_) (nomatch hup.symm.trans ·) (.down ·) (.closing ·)
        obtain rfl := ScaleUp.initializing.inj (Option.some.inj (hup.symm.trans hj))
        exact .failing rfl
    · cases hs
      unfold ExpressionEvaluator.resetIdleTimer
      rw [if_pos htimeout]
      refine ⟨hset.located.same rfl le_rfl fun _ => id, hset.wired.rewire (fun j hj => ?_)
        (fun j hj => .inl ?_) (fun j hj => absurd (hnil j) hj) (fun j _ => hnil j)
        nofun (fun _ _ _ => rfl) hset.wired.disposal hclosing hplain⟩
      · refine hj.elim (fun hj => ?_) nofun nofun (.down ·) (.closing ·)
        cases hj
        exact .starting hup
      · refine hj.elim (nomatch (h.wired.scaling k hup).symm.trans ·) (fun hj => ?_)
          (nomatch hup.symm.trans ·) (.down ·) (.closing ·)
        obtain rfl := ScaleUp.initializing.inj (Option.some.inj (hup.symm.trans hj))
        exact .inl rfl
  · cases hs

theorem Sound.scaleUpFinished (hs : t.scaleUpFinished = some u) : u.Sound config := by
  have hend : ∀ {p : Prop}, config.hasIdleTimeout = false → t.pendingScaleUp ≠ none → p :=
    fun hnot hsome => absurd (h.wired.plain hnot).2.1 hsome
  -- whether it has ended well or not, the pools that are open stay open, or are disposed
  have hfinish : t.pendingScaleUp ≠ none →
      (∀ j, t.pendingScaleUp ≠ some (.initializing j)) →
      (∀ j, t.pendingScaleUp = some (.disposing j) → (t.pools j).settled = true) →
      Sound config { t with pendingScaleUp := none } := by
    intro hsome hstart hsettled
    refine ⟨h.located.same rfl le_rfl fun _ => id, h.wired.rewire (fun j hj => ?_)
      (fun j hj => ?_) (fun j hj => absurd (h.wired.initializing j hj) (hstart j))
      h.wired.innerPool nofun h.wired.idle h.wired.disposal (fun htimeout hdisposal hdraining => ?_)
      fun hnot => hend hnot hsome⟩
    · exact hj.elim (.inner ·) nofun nofun (.down ·) (.closing ·)
    · exact hj.elim (.inl <| .inner ·) (fun hj => absurd hj (hstart j))
        (fun hj => .inr ((h.wired.pools j).quiet (hsettled j hj))) (.inl <| .down ·)
        (.inl <| .closing ·)
    · obtain ⟨hinner, hup, hdown⟩ := h.wired.closing htimeout hdisposal hdraining
      exact ⟨hinner, rfl, hdown⟩
  unfold ExpressionEvaluator.scaleUpFinished at hs
  split at hs
  · next k hup =>
    split_ifs at hs with hsettled
    cases hs
    refine hfinish (hup ▸ nofun) (fun j hj => nomatch hup.symm.trans hj) fun j hj => ?_
    obtain rfl := ScaleUp.disposing.inj (Option.some.inj (hup.symm.trans hj))
    exact hsettled
  · next hup =>
    cases hs
    exact hfinish (hup ▸ nofun) (fun j hj => nomatch hup.symm.trans hj)
      fun j hj => nomatch hup.symm.trans hj
  · cases hs

theorem Sound.scaledDown (hs : t.scaledDown = some u) : u.Sound config := by
  unfold ExpressionEvaluator.scaledDown at hs
  split at hs
  · next k hdown =>
    split_ifs at hs with hsettled
    cases hs
    refine ⟨h.located.same rfl le_rfl fun _ => id, h.wired.rewire (fun j hj => ?_)
      (fun j hj => ?_) h.wired.initializing h.wired.innerPool h.wired.scaling h.wired.idle
      h.wired.disposal (fun htimeout hdisposal hdraining => ?_) fun hnot => ?_⟩
    · exact hj.elim (.inner ·) (.starting ·) (.failing ·) nofun (.closing ·)
    · refine hj.elim (.inl <| .inner ·) (.inl <| .starting ·) (.inl <| .failing ·)
        (fun hj => ?_) (.inl <| .closing ·)
      obtain rfl := Option.some.inj (hdown.symm.trans hj)
      exact .inr ((h.wired.pools k).quiet hsettled)
    · obtain ⟨hinner, hup, -⟩ := h.wired.closing htimeout hdisposal hdraining
      exact ⟨hinner, hup, rfl⟩
    · cases hdown.symm.trans (h.wired.plain hnot).2.2.1
  · cases hs

theorem Sound.dispose : (t.dispose config).Sound config := by
  unfold ExpressionEvaluator.dispose
  by_cases hdone : t.disposal.isSome = true
  · rw [if_pos hdone]
    exact h
  rw [if_neg hdone]
  have hnone : t.disposal = none := by simpa using hdone
  split_ifs with htimeout
  · refine ⟨h.located.same rfl le_rfl fun _ => id, h.wired.rewire (fun j hj => ?_)
      (fun j hj => .inl ?_) h.wired.initializing h.wired.innerPool h.wired.scaling nofun
      (fun _ => rfl) (fun _ _ hdraining => absurd rfl hdraining)
      fun hnot => absurd (htimeout.symm.trans hnot) nofun⟩
    · exact hj.elim (.inner ·) (.starting ·) (.failing ·) (.down ·) nofun
    · exact hj.elim (.inner ·) (.starting ·) (.failing ·) (.down ·) (nomatch hnone.symm.trans ·)
  · have hplain := Bool.eq_false_iff.mpr htimeout
    obtain ⟨hinner, hup, hdown, htimer, -⟩ := h.wired.plain hplain
    have hdispose := h.disposePool (h.wired.innerPool 0 hinner)
    refine ⟨hdispose.located.same rfl le_rfl fun _ => id, hdispose.wired.rewire (fun j hj => ?_)
      (fun j hj => .inl ?_) hdispose.wired.initializing hdispose.wired.innerPool
      hdispose.wired.scaling nofun (fun _ => rfl) (fun hyes => absurd hyes htimeout)
      fun _ => ⟨hinner, hup, hdown, htimer, .inr (.inl rfl)⟩⟩
    · refine hj.elim (.inner ·) (.starting ·) (.failing ·) (.down ·) (fun hj => ?_)
      obtain rfl := Disposal.disposing.inj (Option.some.inj hj)
      exact .inl hinner
    · exact hj.elim (.inner ·) (.starting ·) (.failing ·) (.down ·) (nomatch hnone.symm.trans ·)

theorem Sound.drained (hs : t.drained = some u) : u.Sound config := by
  unfold ExpressionEvaluator.drained at hs
  by_cases hguard : t.disposal = some .draining ∧ t.pendingScaleUp = none ∧
      t.pendingScaleDown = none
  swap
  · rw [if_neg hguard] at hs
    cases hs
  rw [if_pos hguard] at hs
  obtain ⟨hdraining, hup, hdown⟩ := hguard
  have hdisposed : t.disposed = true := h.wired.disposal (hdraining ▸ nofun)
  have hplain : ∀ {p : Prop}, config.hasIdleTimeout = false → p := by
    intro p hnot
    obtain hd | hd | ⟨hd, -⟩ := (h.wired.plain hnot).2.2.2.2
    · cases hdraining.symm.trans hd
    · cases hdraining.symm.trans hd
    · cases hdraining.symm.trans hd
  split at hs
  · next k hinner =>
    cases hs
    have hdispose := h.disposePool (h.wired.innerPool k hinner)
    refine ⟨hdispose.located.same rfl le_rfl fun _ => id, hdispose.wired.rewire (fun j hj => ?_)
      (fun j hj => .inl ?_) hdispose.wired.initializing nofun (fun _ _ => rfl)
      (fun _ hnot => absurd rfl hnot) (fun _ => hdisposed) (fun _ _ _ => ⟨rfl, hup, hdown⟩) hplain⟩
    · refine hj.elim nofun (.starting ·) (.failing ·) (.down ·) (fun hj => ?_)
      obtain rfl := Disposal.disposing.inj (Option.some.inj hj)
      exact .inl hinner
    · refine hj.elim (fun hj => ?_) (.starting ·) (.failing ·) (.down ·)
        (nomatch hdraining.symm.trans ·)
      obtain rfl := Option.some.inj (hinner.symm.trans hj)
      exact .closing rfl
  · next hinner =>
    cases hs
    refine ⟨h.located.same rfl le_rfl fun _ => id, h.wired.rewire (fun j hj => ?_)
      (fun j hj => .inl ?_) h.wired.initializing h.wired.innerPool h.wired.scaling
      (fun _ hnot => absurd hinner hnot) (fun _ => hdisposed) (fun _ _ _ => ⟨hinner, hup, hdown⟩)
      hplain⟩
    · exact hj.elim (.inner ·) (.starting ·) (.failing ·) (.down ·) nofun
    · exact hj.elim (.inner ·) (.starting ·) (.failing ·) (.down ·) (nomatch hdraining.symm.trans ·)

theorem Sound.disposed (hdisposal : t.disposal = some (.disposing k))
    (hsettled : (t.pools k).settled = true) :
    Sound config { t with disposal := some .settled } := by
  have hdisposed : t.disposed = true := h.wired.disposal (hdisposal ▸ nofun)
  refine ⟨h.located.same rfl le_rfl fun _ => id, h.wired.rewire (fun j hj => ?_)
    (fun j hj => ?_) h.wired.initializing h.wired.innerPool h.wired.scaling h.wired.idle
    (fun _ => hdisposed)
    (fun htimeout _ _ => h.wired.closing htimeout (hdisposal ▸ nofun) (hdisposal ▸ nofun))
    fun hplain => ?_⟩
  · exact hj.elim (.inner ·) (.starting ·) (.failing ·) (.down ·) nofun
  · refine hj.elim (.inl <| .inner ·) (.inl <| .starting ·) (.inl <| .failing ·)
      (.inl <| .down ·) (fun hj => ?_)
    obtain rfl := Disposal.disposing.inj (Option.some.inj (hdisposal.symm.trans hj))
    exact .inr ((h.wired.pools k).quiet hsettled)
  · obtain ⟨hinner, hup, hdown, htimer, hd⟩ := h.wired.plain hplain
    refine ⟨hinner, hup, hdown, htimer, .inr (.inr ⟨rfl, ?_⟩)⟩
    obtain hd | hd | ⟨hd, -⟩ := hd
    · cases hdisposal.symm.trans hd
    · obtain rfl := Disposal.disposing.inj (Option.some.inj (hdisposal.symm.trans hd))
      exact hsettled
    · cases hdisposal.symm.trans hd

theorem Sound.initialized {initialized : Bool}
    (hcreation : (t.bridges b).creation = .initializing) :
    (t.endCreation b initialized).Sound config := by
  refine ⟨h.located.same rfl le_rfl fun b' halive => ?_, h.wired.of_bridges _ _⟩
  obtain ⟨hmade, hdisposed, hnot⟩ := halive
  by_cases heq : b' = b
  · subst heq
    simp only [endCreation, setBridge, Function.update_self] at hdisposed
    refine ⟨hmade, hdisposed, ?_⟩
    rw [hcreation]
    decide
  · have hbridge : (t.endCreation b initialized).bridges b' = t.bridges b' :=
      Function.update_of_ne heq ..
    exact ⟨hmade, hbridge ▸ hdisposed, hbridge ▸ hnot⟩

end Sound

/-! ## Runs -/

theorem Sound.initial {outcomes : List Bool} (hlength : outcomes.length = config.poolSize) :
    (initial config outcomes).Sound config := by
  have hwarm : ∀ b, b ∈ (List.range outcomes.length).filter (outcomes[·]? = some true) ↔
      outcomes[b]? = some true := by
    intro b
    rw [List.mem_filter, List.mem_range, decide_eq_true_iff]
    exact ⟨And.right, fun hb => ⟨(List.getElem?_eq_some_iff.mp hb).1, hb⟩⟩
  have hpool : ∀ k, k ≠ 0 → (ExpressionEvaluator.initial config outcomes).pools k = .empty :=
    fun k hk => by simp [ExpressionEvaluator.initial, hk]
  have hquiet : ∀ k, k ≠ 0 → Quiet ((ExpressionEvaluator.initial config outcomes).pools k) := by
    intro k hk
    rw [hpool k hk]
    exact ⟨rfl, rfl, rfl, .inr ⟨rfl, rfl⟩⟩
  have hfirst : (ExpressionEvaluator.initial config outcomes).pools 0 = { IsolatePool.empty with
      bridges := (List.range outcomes.length).filter (outcomes[·]? = some true) } := by
    simp [ExpressionEvaluator.initial]
  have hat : ∀ b place, (ExpressionEvaluator.initial config outcomes).At b place →
      place = .pool 0 .warm ∧ outcomes[b]? = some true := by
    intro b place hat
    cases place with
    | held c => cases hat
    | coldStart c => cases hat
    | pool k part =>
      have hk : k = 0 := by
        by_contra hk
        exact (hquiet k hk).not_has part hat
      subst hk
      replace hat : ((ExpressionEvaluator.initial config outcomes).pools 0).Has b part := hat
      rw [hfirst] at hat
      cases part with
      | warm => exact ⟨rfl, (hwarm b).mp hat⟩
      | replenishing => exact absurd hat List.not_mem_nil
      | initializing => exact absurd hat List.not_mem_nil
  refine ⟨⟨fun b p q hp hq => (hat b p hp).1.trans (hat b q hq).1.symm, fun b place hp => ?_,
    fun b halive => ⟨.pool 0 .warm, ?_⟩⟩, ?_⟩
  · exact (List.getElem?_eq_some_iff.mp (hat b place hp).2).1
  · show ((ExpressionEvaluator.initial config outcomes).pools 0).Has b .warm
    rw [hfirst]
    refine (hwarm b).mpr ?_
    -- what was made is created, or has failed
    obtain ⟨hmade, -, hcreation⟩ := halive
    cases hb : outcomes[b]? with
    | none => exact absurd hmade (not_lt.mpr (List.getElem?_eq_none_iff.mp hb))
    | some created =>
      cases created with
      | true => rfl
      | false => simp [ExpressionEvaluator.initial, hb] at hcreation
  · refine ⟨fun k => ?_, fun k hk => ?_, fun k hk => hquiet k ?_, fun k hk => ?_, fun k _ => ?_,
      nofun, nofun, fun _ => rfl, fun _ => rfl, fun htimeout _ _ => htimeout, fun hnot => absurd rfl
      hnot, fun _ hnot => absurd rfl hnot, fun hplain => ⟨rfl, rfl, rfl, hplain, .inl rfl⟩⟩
    · by_cases hk : k = 0
      · rw [hk, hfirst]
        refine ⟨⟨List.nodup_range.filter _, List.nodup_nil⟩, le_rfl, ?_,
          fun hnot => absurd rfl hnot, nofun⟩
        have hfilter := List.length_filter_le (fun b => decide (outcomes[b]? = some true))
          (List.range outcomes.length)
        rw [List.length_range, hlength] at hfilter
        simpa [IsolatePool.empty, hlength] using hfilter
      · rw [hpool k hk]
        exact ⟨⟨List.nodup_nil, List.nodup_nil⟩, le_rfl, Nat.zero_le _, fun hnot => absurd rfl hnot,
          nofun⟩
    · obtain hk | hk | hk | hk | hk := hk
      · cases hk
        exact Nat.one_pos
      all_goals cases hk
    · rintro rfl
      exact hk (.inl rfl)
    · have hnil : ((ExpressionEvaluator.initial config outcomes).pools k).initializing = [] := by
        by_cases heq : k = 0
        · rw [heq, hfirst]
          rfl
        · exact (hquiet k heq).initializing
      exact absurd hnil hk
    · by_cases heq : k = 0
      · rw [heq, hfirst]
        rfl
      · exact (hquiet k heq).initializing

theorem Sound.next (h : t.Sound config) {e : Event} (hs : t.next config e = some u)
    (hslip : ¬ t.Slip e) : u.Sound config := by
  cases e with
  | acquire c =>
    cases hs
    exact h.acquire hslip
  | evaluate c initialized dies =>
    cases hs
    exact h.evaluate
  | release c =>
    cases hs
    exact h.release
  | coldStarted b initialized => exact h.coldStarted hs
  | replenished k b initialized => exact h.replenished hs
  | retry k i => exact h.retry hs
  | released k => exact h.released hs
  | idle =>
    rw [ExpressionEvaluator.next] at hs
    split_ifs at hs with htimer
    cases hs
    exact h.triggerScaleDown htimer hslip
  | initialized k b initialized =>
    rw [ExpressionEvaluator.next] at hs
    split_ifs at hs with hguard
    cases hs
    exact h.initialized hguard.2
  | scaledUp => exact h.scaledUp hs
  | scaleUpFinished => exact h.scaleUpFinished hs
  | poolDisposed k => exact h.poolDisposed hs
  | scaledDown => exact h.scaledDown hs
  | dispose =>
    cases hs
    exact h.dispose
  | drained => exact h.drained hs
  | disposed =>
    rw [ExpressionEvaluator.next] at hs
    split at hs
    · next k hdisposal =>
      split_ifs at hs with hsettled
      cases hs
      exact h.disposed hdisposal hsettled
    · cases hs

/-- When `dispose` is through, every pool is. -/
theorem Sound.quiet (h : t.Sound config) (hdisposal : t.disposal = some .settled) (k : ℕ) :
    Quiet (t.pools k) := by
  have hw := h.wired
  cases htimeout : config.hasIdleTimeout with
  | true =>
    obtain ⟨hinner, hup, hdown⟩ := hw.closing htimeout (hdisposal ▸ nofun) (hdisposal ▸ nofun)
    refine hw.quiet k fun hopen => ?_
    exact hopen.elim (nomatch hinner.symm.trans ·) (nomatch hup.symm.trans ·)
      (nomatch hup.symm.trans ·) (nomatch hdown.symm.trans ·) (nomatch hdisposal.symm.trans ·)
  | false =>
    obtain ⟨hinner, hup, hdown, -, hd⟩ := hw.plain htimeout
    by_cases hk : k = 0
    · subst hk
      obtain hd | hd | ⟨-, hsettled⟩ := hd
      · cases hdisposal.symm.trans hd
      · cases hdisposal.symm.trans hd
      · exact (hw.pools 0).quiet hsettled
    · refine hw.quiet k fun hopen => ?_
      obtain hk' | hk' | hk' | hk' | hk' := hopen
      · exact hk (Option.some.inj (hinner.symm.trans hk')).symm
      · cases hup.symm.trans hk'
      · cases hup.symm.trans hk'
      · cases hdown.symm.trans hk'
      · cases hdisposal.symm.trans hk'

theorem Sound.isProper (h : t.Sound config) : t.IsProper config where
  place b halive := by
    obtain ⟨place, hplace⟩ := h.located.alive b halive
    exact ⟨place, hplace, fun place' hplace' => h.located.exclusive hplace' hplace⟩
  warm b k hwarm := by
    refine h.wired.isOpen_of_not_quiet fun hquiet => ?_
    rw [hquiet.bridges] at hwarm
    exact List.not_mem_nil hwarm
  capacity k := (h.wired.pools k).capacity
  warming k := (h.wired.pools k).warming
  disposed hdisposal hcallers hstarts b halive := by
    obtain ⟨place, hplace⟩ := h.located.alive b halive
    cases place with
    | pool k part => exact (h.quiet hdisposal k).not_has part hplace
    | held c => cases (hcallers c).symm.trans hplace
    | coldStart c =>
      have hmem : (c, b) ∈ t.coldStarts := hplace
      rw [hstarts] at hmem
      exact List.not_mem_nil hmem
  idle htimeout hinner hdisposed := .inl (h.wired.idle htimeout hinner hdisposed)

section Runs

variable {outcomes : List Bool} {es : List Event}

/-- Runs without a slip. -/
abbrev Steady (config : EvaluatorConfig) : Transition.System ExpressionEvaluator Event :=
  (expressionEvaluator config).restrict fun t e _ => ¬ t.Slip e

/-- **Isolates along a run without a slip**: a bridge that is alive is in one place, and none is
left when the evaluator is disposed and no caller has one. -/
theorem isolates_run (hinit : (Steady config).init t) (h : (Steady config).Run t es u) :
    u.IsProper config := by
  obtain ⟨outcomes, hlength, -, rfl⟩ := hinit
  refine Sound.isProper (h.history_invariant (I := fun _ u => u.Sound config) (.initial hlength) ?_)
  rintro es t e u hsound ⟨hs, hslip⟩
  exact hsound.next hs hslip

/-- The pool is scaled to zero and up again, and the evaluator is disposed on the way. -/
theorem isolates_run_disposed : ∃ t : ExpressionEvaluator,
    t.bridgeCount = 4 ∧ t.disposal = some .settled ∧ t.IsProper ⟨1, true, false⟩ := by
  obtain ⟨t, hrun, hcount, hdisposal⟩ : ∃ t, (Steady ⟨1, true, false⟩).Run
      (initial ⟨1, true, false⟩ [true])
      [.acquire 0, .replenished 0 1 true, .idle, .poolDisposed 0, .acquire 1, .coldStarted 3 true,
        .release 0, .release 1, .dispose, .initialized 1 2 true, .scaledUp, .poolDisposed 1,
        .scaleUpFinished, .scaledDown, .drained] t ∧
      t.bridgeCount = 4 ∧ t.disposal = some .settled := by
    refine ⟨_, .restrict_cons rfl ?_ <| .restrict_cons rfl id <| .restrict_cons rfl ?_ <|
      .restrict_cons rfl id <| .restrict_cons rfl ?_ <| .restrict_cons rfl id <|
      .restrict_cons rfl id <| .restrict_cons rfl id <| .restrict_cons rfl id <|
      .restrict_cons rfl id <| .restrict_cons rfl id <| .restrict_cons rfl id <|
      .restrict_cons rfl id <| .restrict_cons rfl id <| .restrict_cons rfl id .nil, rfl, rfl⟩
    · exact fun hslip => List.not_mem_nil hslip.2.choose_spec
    · rintro ⟨-, -, hup | hdown⟩
      · exact hup rfl
      · exact hdown rfl
    · exact fun hslip => List.not_mem_nil hslip.2.choose_spec
  exact ⟨t, hcount, hdisposal, isolates_run ⟨[true], rfl, List.mem_cons_self, rfl⟩ hrun⟩

/-- **Bridges outside of the current pool**: those of a pool that is being disposed are kept until
its replenishments have ended. A caller that acquires twice leaves a bridge behind. And an idle
timer that fires while another pool is disposed is not armed again. -/
theorem not_proper :
    (∃ t : ExpressionEvaluator, (expressionEvaluator ⟨2, true, false⟩).Run
        (initial ⟨2, true, false⟩ [true, true]) [.acquire 0, .idle] t ∧
      t.bridges 1 = ⟨.created, false⟩ ∧ (∀ c, t.bridgesByCaller c ≠ some 1) ∧ t.innerPool = none) ∧
    (∃ t : ExpressionEvaluator, (expressionEvaluator ⟨1, false, false⟩).Run
        (initial ⟨1, false, false⟩ [true])
        [.acquire 0, .release 0, .acquire 0, .acquire 0, .coldStarted 2 true, .coldStarted 3 true,
          .release 0, .replenished 0 1 true, .dispose, .poolDisposed 0, .disposed] t ∧
      ¬ t.IsProper ⟨1, false, false⟩) ∧
    ∃ t : ExpressionEvaluator, (expressionEvaluator ⟨1, true, false⟩).Run
        (initial ⟨1, true, false⟩ [true])
        [.acquire 0, .idle, .acquire 1, .initialized 1 2 true, .scaledUp, .scaleUpFinished, .idle,
          .replenished 0 1 true, .poolDisposed 0, .scaledDown] t ∧
      ¬ t.IsProper ⟨1, true, false⟩ := by
  refine ⟨⟨_, Transition.System.run_of_follow id rfl, rfl, fun c => ?_, rfl⟩,
    ⟨_, Transition.System.run_of_follow id rfl, fun h => ?_⟩,
    ⟨_, Transition.System.run_of_follow id rfl, fun h => ?_⟩⟩
  · by_cases hc : c = 0
    · rw [hc]
      exact nofun
    · exact fun hheld => nomatch (Function.update_of_ne hc ..).symm.trans hheld
  · refine h.disposed rfl (fun c => ?_) rfl 2 ⟨Nat.lt_succ_of_lt (Nat.lt_succ_self 2), rfl, nofun⟩
    obtain rfl | c := c <;> rfl
  · obtain htimer | hup | hdown := h.idle rfl nofun rfl
    · cases htimer
    · exact hup rfl
    · exact hdown rfl

end Runs

end ExpressionEvaluator

end N8n.ExpressionRuntime
