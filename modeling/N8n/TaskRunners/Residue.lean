import N8n.TaskRunners.Resolution

/-!
# What a handshake leaves behind

While a handshake waits for one of its sides, the broker keeps the callbacks of its promise under
the id of the task. As long as no callback that sends a message fails at the wrong moment, a
handshake takes its callbacks with it however it ends, and a runner is not taken to be busy with a
handshake that is over. A message that cannot be sent leaves them behind.

## Main definitions

* `NoResidue`: the callbacks that are kept are those of handshakes that go on
* `Clean`: the step is not one of those that leave callbacks behind
* `Tidy`: the invariant

## Main results

* `Tidy.move`: what happens to one handshake leaves the others as they are
* `next_tidy`: a step that is clean keeps the invariant
* `noResidue_of_clean`: in a run whose steps are clean nothing is left behind
* `not_noResidue`: an offer that cannot be accepted keeps its runner busy
-/

namespace N8n.TaskRunners

open TaskBroker OrderedMap Transition.System

/-- A handshake that goes on waits for the runner, or for the requester. -/
def AcceptPromise.isOpen {α : Type} (timeout : BrokerError) : AcceptPromise α → Bool
  | .pending => true
  | .resolved _ => false
  | .rejected error => error = timeout

def Stage.awaitsRunner : Stage → Bool
  | .offering promise | .awaitingRunner promise => promise.isOpen .runnerAcceptTimeout
  | _ => false

def Stage.awaitsRequester : Stage → Bool
  | .readying promise | .awaitingRequester promise => promise.isOpen .requesterAcceptTimeout
  | _ => false

/-- The callbacks that are kept are those of handshakes that go on and wait for them, so that a
runner counts as busy only for an offer, a task or a handshake that is there. -/
structure NoResidue (s : TaskBroker) : Prop where
  runner : ∀ taskId ∈ s.runnerAcceptRejects.keys, ∃ attempt,
    s.attempts.get? taskId = some attempt ∧ attempt.stage.awaitsRunner
  requester : ∀ taskId ∈ s.requesterAcceptRejects, ∃ attempt,
    s.attempts.get? taskId = some attempt ∧ attempt.stage.awaitsRequester
  silence : ∀ runnerId, s.isSilent runnerId = false →
    (∃ offer ∈ s.pendingTaskOffers, offer.runnerId = runnerId) ∨
    (∃ task ∈ s.tasks.values, task.runnerId = runnerId) ∨
    ∃ taskId attempt, s.attempts.get? taskId = some attempt ∧ attempt.stage.awaitsRunner ∧
      attempt.offer.runnerId = runnerId

/-- The step is not one in which a message of a handshake cannot be sent while its callbacks are
still there. -/
structure Clean (s : TaskBroker) (label : Surroundings × Event) : Prop where
  offering : ∀ taskId error attempt promise, label.2 = .advance taskId (.error error) →
    s.attempts.get? taskId = some attempt → attempt.stage = .offering promise →
    error ≠ .runnerAcceptTimeout → s.runnerAcceptRejects.get? taskId = none
  readying : ∀ taskId error attempt promise, label.2 = .advance taskId (.error error) →
    s.attempts.get? taskId = some attempt → attempt.stage = .readying promise →
    error ≠ .requesterAcceptTimeout → taskId ∉ s.requesterAcceptRejects

/-! ## The invariant -/

structure Tidy (nanoid : ℕ → String) (s : TaskBroker) : Prop where
  runner : ∀ taskId runnerId, s.runnerAcceptRejects.get? taskId = some runnerId →
    ∃ attempt, s.attempts.get? taskId = some attempt ∧ attempt.stage.awaitsRunner ∧
      attempt.offer.runnerId = runnerId
  requester : ∀ taskId ∈ s.requesterAcceptRejects, ∃ attempt,
    s.attempts.get? taskId = some attempt ∧ attempt.stage.awaitsRequester
  fresh : ∀ n, s.drawn ≤ n → s.attempts.get? (nanoid n) = none

/-- The part of a state that the invariant is about. -/
def callbacks (s : TaskBroker) :=
  (s.runnerAcceptRejects, s.requesterAcceptRejects, s.attempts, s.drawn)

namespace Tidy

variable {nanoid : ℕ → String} {s t : TaskBroker} {taskId : String}

theorem initial : Tidy nanoid .initial := by
  constructor
  · intro taskId runnerId h
    cases h
  · exact fun taskId h => absurd h List.not_mem_nil
  · exact fun n _ => rfl

/-- Nothing happens to the callbacks and the handshakes. -/
theorem frame (h : Tidy nanoid s) (heq : callbacks t = callbacks s) : Tidy nanoid t := by
  simp only [callbacks, Prod.mk.injEq] at heq
  obtain ⟨hrunner, hrequester, hattempts, hdrawn⟩ := heq
  constructor
  · rw [hrunner, hattempts]
    exact h.runner
  · rw [hrequester, hattempts]
    exact h.requester
  · rw [hdrawn, hattempts]
    exact h.fresh

/-- Something happens to one handshake and its callbacks. -/
theorem move (h : Tidy nanoid s) {attempt : Attempt}
    (hget : s.attempts.get? taskId = some attempt) (hdrawn : t.drawn = s.drawn)
    (hothers : ∀ other, other ≠ taskId → t.attempts.get? other = s.attempts.get? other ∧
      (∀ runnerId, t.runnerAcceptRejects.get? other = some runnerId →
        s.runnerAcceptRejects.get? other = some runnerId) ∧
      (other ∈ t.requesterAcceptRejects → other ∈ s.requesterAcceptRejects))
    (hrunner : ∀ runnerId, t.runnerAcceptRejects.get? taskId = some runnerId →
      ∃ attempt, t.attempts.get? taskId = some attempt ∧ attempt.stage.awaitsRunner ∧
        attempt.offer.runnerId = runnerId)
    (hrequester : taskId ∈ t.requesterAcceptRejects →
      ∃ attempt, t.attempts.get? taskId = some attempt ∧ attempt.stage.awaitsRequester) :
    Tidy nanoid t := by
  constructor
  · intro other runnerId hentry
    by_cases hid : other = taskId
    · subst hid
      exact hrunner runnerId hentry
    · obtain ⟨hattempts, hrunners, -⟩ := hothers other hid
      rw [hattempts]
      exact h.runner other runnerId (hrunners runnerId hentry)
  · intro other hentry
    by_cases hid : other = taskId
    · subst hid
      exact hrequester hentry
    · obtain ⟨hattempts, -, hrequesters⟩ := hothers other hid
      rw [hattempts]
      exact h.requester other (hrequesters hentry)
  · intro n hn
    have hnone := h.fresh n (hdrawn ▸ hn)
    have hne : nanoid n ≠ taskId := by
      rintro rfl
      rw [hnone] at hget
      cases hget
    rw [(hothers _ hne).1]
    exact hnone

theorem forgetRunner (h : Tidy nanoid s) (taskId : String) :
    Tidy nanoid { s with runnerAcceptRejects := s.runnerAcceptRejects.delete taskId } := by
  refine ⟨fun other runnerId hentry => ?_, h.requester, h.fresh⟩
  dsimp only at hentry
  rw [get?_delete] at hentry
  split_ifs at hentry
  exact h.runner other runnerId hentry

theorem forgetRequester (h : Tidy nanoid s) (taskId : String) :
    Tidy nanoid { s with requesterAcceptRejects := s.requesterAcceptRejects.delete taskId } :=
  ⟨h.runner, fun other hentry => h.requester other (OrderedSet.mem_delete.mp hentry).2, h.fresh⟩

/-- The stage of a handshake changes; where there are callbacks, the new stage waits for them. -/
theorem settleStage (h : Tidy nanoid s) {settle : Stage → Stage}
    (hrunner : ∀ attempt runnerId, s.attempts.get? taskId = some attempt →
      s.runnerAcceptRejects.get? taskId = some runnerId → (settle attempt.stage).awaitsRunner)
    (hrequester : ∀ attempt, s.attempts.get? taskId = some attempt →
      taskId ∈ s.requesterAcceptRejects → (settle attempt.stage).awaitsRequester) :
    Tidy nanoid (s.settleStage taskId settle) := by
  unfold TaskBroker.settleStage
  split
  · exact h
  · case h_2 attempt hget =>
    refine h.move hget ?_ ?_ ?_ ?_
    · exact rfl
    · exact fun other hne => ⟨get?_set_of_ne hne, fun _ hentry => hentry, id⟩
    · intro runnerId hentry
      obtain ⟨attempt', hget', -, hrunnerId⟩ := h.runner taskId runnerId hentry
      obtain rfl := Option.some.inj (hget.symm.trans hget')
      exact ⟨_, get?_set_self, hrunner attempt runnerId hget hentry, hrunnerId⟩
    · exact fun hentry => ⟨_, get?_set_self, hrequester attempt hget hentry⟩

/-- A handshake without callbacks goes to any stage, or ends. -/
theorem putStage (h : Tidy nanoid s) (hrunner : s.runnerAcceptRejects.get? taskId = none)
    (hrequester : taskId ∉ s.requesterAcceptRejects) (stage : Stage) :
    Tidy nanoid (s.putStage taskId stage) := by
  apply h.settleStage
  · intro _ runnerId _ hentry
    rw [hrunner] at hentry
    cases hentry
  · exact fun _ _ hentry => absurd hentry hrequester

theorem finish (h : Tidy nanoid s) (hrunner : s.runnerAcceptRejects.get? taskId = none)
    (hrequester : taskId ∉ s.requesterAcceptRejects) : Tidy nanoid (s.finish taskId) := by
  unfold TaskBroker.finish
  constructor
  · intro other runnerId hentry
    have hne : other ≠ taskId := by
      rintro rfl
      rw [hrunner] at hentry
      cases hentry
    dsimp only
    rw [get?_delete_of_ne hne]
    exact h.runner other runnerId hentry
  · intro other hentry
    have hne : other ≠ taskId := fun heq => hrequester (heq ▸ hentry)
    dsimp only
    rw [get?_delete_of_ne hne]
    exact h.requester other hentry
  · intro n hn
    dsimp only
    rw [get?_delete, h.fresh n hn, ite_self]

/-! ### Callbacks that are called -/

theorem awaitsRequester_settleRunnerPromise (outcome : AcceptPromise Unit) (stage : Stage) :
    (settleRunnerPromise outcome stage).awaitsRequester = stage.awaitsRequester := by
  cases stage <;> rfl

theorem awaitsRunner_settleRequesterPromise (outcome : AcceptPromise String) (stage : Stage) :
    (settleRequesterPromise outcome stage).awaitsRunner = stage.awaitsRunner := by
  cases stage <;> rfl

/-- What the callbacks of a handshake that goes on tell about it. -/
theorem awaits (h : Tidy nanoid s) {attempt : Attempt}
    (hget : s.attempts.get? taskId = some attempt) :
    (∀ runnerId, s.runnerAcceptRejects.get? taskId = some runnerId →
      attempt.stage.awaitsRunner) ∧
    (taskId ∈ s.requesterAcceptRejects → attempt.stage.awaitsRequester) := by
  constructor
  · intro runnerId hentry
    obtain ⟨attempt', hget', hawaits, -⟩ := h.runner taskId runnerId hentry
    obtain rfl := Option.some.inj (hget.symm.trans hget')
    exact hawaits
  · intro hentry
    obtain ⟨attempt', hget', hawaits⟩ := h.requester taskId hentry
    obtain rfl := Option.some.inj (hget.symm.trans hget')
    exact hawaits

theorem settleRunner (h : Tidy nanoid s) (outcome : AcceptPromise Unit) :
    Tidy nanoid (s.settleRunner taskId outcome) := by
  unfold TaskBroker.settleRunner
  split
  · exact h
  · have hforget : Tidy nanoid (TaskBroker.settleStage taskId
        (settleRunnerPromise outcome)
        { s with runnerAcceptRejects := s.runnerAcceptRejects.delete taskId }) := by
      apply (h.forgetRunner taskId).settleStage
      · intro _ runnerId _ hentry
        dsimp only at hentry
        rw [get?_delete_self] at hentry
        cases hentry
      · intro attempt hget hentry
        rw [awaitsRequester_settleRunnerPromise]
        exact (h.awaits hget).2 hentry
    apply hforget.frame
    unfold TaskBroker.settleStage
    dsimp only
    split <;> rfl

theorem settleRequester (h : Tidy nanoid s) (outcome : AcceptPromise String) :
    Tidy nanoid (s.settleRequester taskId outcome) := by
  unfold TaskBroker.settleRequester
  split
  · have hforget : Tidy nanoid (TaskBroker.settleStage taskId
        (settleRequesterPromise outcome)
        { s with requesterAcceptRejects := s.requesterAcceptRejects.delete taskId }) := by
      apply (h.forgetRequester taskId).settleStage
      · intro attempt runnerId hget hentry
        rw [awaitsRunner_settleRequesterPromise]
        exact (h.awaits hget).1 runnerId hentry
      · intro _ _ hentry
        exact absurd rfl (OrderedSet.mem_delete.mp hentry).1
    apply hforget.frame
    unfold TaskBroker.settleStage
    dsimp only
    split <;> rfl
  · exact h

/-- A timer only settles a promise that is still waited for. -/
theorem runnerTimeout (h : Tidy nanoid s) : Tidy nanoid (s.settleStage taskId
    (settleRunnerPromise (.rejected .runnerAcceptTimeout))) := by
  apply h.settleStage
  · intro attempt runnerId hget hentry
    have hawaits := (h.awaits hget).1 runnerId hentry
    revert hawaits
    cases attempt.stage with
    | offering promise => cases promise <;> exact fun h => h
    | awaitingRunner promise => cases promise <;> exact fun h => h
    | _ => exact fun h => h
  · intro attempt hget hentry
    rw [awaitsRequester_settleRunnerPromise]
    exact (h.awaits hget).2 hentry

theorem requesterTimeout (h : Tidy nanoid s) : Tidy nanoid (s.settleStage taskId
    (settleRequesterPromise (.rejected .requesterAcceptTimeout))) := by
  apply h.settleStage
  · intro attempt runnerId hget hentry
    rw [awaitsRunner_settleRequesterPromise]
    exact (h.awaits hget).1 runnerId hentry
  · intro attempt hget hentry
    have hawaits := (h.awaits hget).2 hentry
    revert hawaits
    cases attempt.stage with
    | readying promise => cases promise <;> exact fun h => h
    | awaitingRequester promise => cases promise <;> exact fun h => h
    | _ => exact fun h => h

end Tidy

/-! ## Functions that leave the callbacks alone -/

section Frame

variable {s : TaskBroker} {taskId : String}

theorem callbacks_messageRunner (runnerId : String) (message : BrokerMessage) :
    callbacks (s.messageRunner runnerId message) = callbacks s := by
  unfold messageRunner
  split <;> rfl

theorem callbacks_messageRequester (requesterId : String) (message : BrokerMessage) :
    callbacks (s.messageRequester requesterId message) = callbacks s := by
  unfold messageRequester
  split <;> rfl

theorem callbacks_cancelTask (reason : String) :
    callbacks (s.cancelTask taskId reason) = callbacks s := by
  unfold cancelTask
  split
  · rfl
  · exact callbacks_messageRunner _ _

theorem callbacks_settleTask (message : Task → BrokerMessage) :
    callbacks (s.settleTask taskId message) = callbacks s := by
  unfold settleTask
  split
  · rfl
  · exact callbacks_messageRequester _ _

theorem callbacks_foldl {α : Type} {f : TaskBroker → α → TaskBroker}
    (h : ∀ s a, callbacks (f s a) = callbacks s) (l : List α) :
    callbacks (l.foldl f s) = callbacks s := by
  induction l generalizing s with
  | nil => rfl
  | cons a l ih => exact ih.trans (h s a)

theorem callbacks_failTasks (taskIds : List String) (error : String) :
    callbacks (s.failTasks taskIds error) = callbacks s :=
  callbacks_foldl (fun _ _ => callbacks_settleTask _) taskIds

theorem callbacks_reportUnresponsive (runnerId : String) :
    callbacks (s.reportUnresponsive runnerId).2 = callbacks s := by
  unfold reportUnresponsive
  split <;> rfl

theorem callbacks_flagSilentRunner (env : Surroundings) (runner : TaskRunner) :
    callbacks (s.flagSilentRunner env runner) = callbacks s := by
  unfold flagSilentRunner
  split
  · rfl
  · split
    · rfl
    · split
      · dsimp only
        split
        · exact callbacks_reportUnresponsive runner.id
        · exact callbacks_reportUnresponsive runner.id
      · rfl

theorem callbacks_flagSilentRunners (env : Surroundings) (taskType : String) :
    callbacks (s.flagSilentRunners env taskType) = callbacks s :=
  callbacks_foldl (fun _ runner => callbacks_flagSilentRunner env runner) _

theorem callbacks_flagRunnerIfUnresponsive (env : Surroundings) (config : TaskRunnersConfig)
    (runnerId : String) :
    callbacks (s.flagRunnerIfUnresponsive env config runnerId) = callbacks s := by
  unfold flagRunnerIfUnresponsive
  dsimp only
  split
  · rfl
  · split
    · rfl
    · split
      · exact callbacks_reportUnresponsive runnerId
      · exact callbacks_reportUnresponsive runnerId

theorem callbacks_handleRequestTimeout (env : Surroundings) (requestId : String) :
    callbacks (s.handleRequestTimeout env requestId) = callbacks s := by
  unfold handleRequestTimeout
  split
  · rfl
  · exact (callbacks_messageRequester _ _).trans (callbacks_flagSilentRunners env _)

theorem callbacks_askRequester (message : String → BrokerMessage) :
    callbacks (s.askRequester taskId message) = callbacks s := by
  unfold askRequester
  split
  · rfl
  · exact callbacks_messageRequester _ _

theorem callbacks_answerRunner (env : Surroundings) (message : String → BrokerMessage) :
    callbacks (s.answerRunner env taskId message) = callbacks s := by
  unfold answerRunner
  split
  · rfl
  · split
    · exact callbacks_settleTask _
    · exact callbacks_messageRunner _ _

end Frame

namespace Tidy

variable {nanoid : ℕ → String} {s : TaskBroker} {taskId : String} {config : TaskRunnersConfig}
  {env : Surroundings}

section Tidy

variable (h : Tidy nanoid s) {attempt : Attempt} {callback : Except BrokerError Unit}
  {t : TaskBroker}
include h

/-- A handshake that begins has its callbacks. -/
theorem acceptOffer (hnanoid : Function.Injective nanoid) (offer : TaskOffer)
    (request : TaskRequest) : Tidy nanoid (s.acceptOffer nanoid offer request) := by
  unfold TaskBroker.acceptOffer
  refine frame ?_ (callbacks_messageRunner _ _)
  have hnone := h.fresh s.drawn (Nat.le_refl _)
  constructor
  · intro other runnerId hentry
    dsimp only at hentry ⊢
    by_cases hid : other = nanoid s.drawn
    · subst hid
      rw [get?_set_self] at hentry
      exact ⟨_, get?_set_self, rfl, Option.some.inj hentry⟩
    · rw [get?_set_of_ne hid] at hentry ⊢
      exact h.runner other runnerId hentry
  · intro other hentry
    obtain ⟨attempt, hget, hawaits⟩ := h.requester other hentry
    have hid : other ≠ nanoid s.drawn := by
      rintro rfl
      rw [hnone] at hget
      cases hget
    exact ⟨attempt, (get?_set_of_ne hid).trans hget, hawaits⟩
  · intro n hn
    have hlater : s.drawn < n := hn
    have hne : nanoid n ≠ nanoid s.drawn := fun heq => hlater.ne' (hnanoid heq)
    exact (get?_set_of_ne hne).trans (h.fresh n hlater.le)

theorem settleRequest (hnanoid : Function.Injective nanoid) (request : TaskRequest) :
    Tidy nanoid (s.settleRequest nanoid request) := by
  unfold TaskBroker.settleRequest
  split
  · exact h
  · split
    · exact h
    · refine acceptOffer ?_ hnanoid _ request
      exact h.frame rfl

theorem settleTasks (hnanoid : Function.Injective nanoid) :
    Tidy nanoid (s.settleTasks nanoid env) := by
  unfold TaskBroker.settleTasks
  dsimp only
  generalize pendingTaskRequests _ = requests
  have hclean : Tidy nanoid ((s.expireTasks env).discardOffersFromUnreachableRunners env) :=
    h.frame rfl
  generalize (s.expireTasks env).discardOffersFromUnreachableRunners env = u at hclean
  induction requests generalizing u with
  | nil => exact hclean
  | cons request requests ih => exact ih _ (hclean.settleRequest hnanoid request)

theorem taskRequested (hnanoid : Function.Injective nanoid)
    (requestId requesterId taskType : String) :
    Tidy nanoid (s.taskRequested nanoid env requestId requesterId taskType) := by
  unfold TaskBroker.taskRequested
  dsimp only
  split
  · refine frame ?_ (callbacks_messageRequester _ _)
    exact h.frame rfl
  · refine settleTasks ?_ hnanoid
    exact h.frame rfl

theorem deregisterRunner (runnerId error : String) :
    Tidy nanoid (s.deregisterRunner runnerId error) := by
  unfold TaskBroker.deregisterRunner
  refine frame ?_ (callbacks_failTasks _ _)
  generalize List.map Prod.fst _ = waiting
  have hgone : Tidy nanoid (discardOffersFrom runnerId { s with
      knownRunners := s.knownRunners.delete runnerId
      consecutiveAcceptTimeouts := s.consecutiveAcceptTimeouts.delete runnerId
      silentRunnersSince := s.silentRunnersSince.delete runnerId }) := h.frame rfl
  generalize discardOffersFrom runnerId _ = u at hgone
  induction waiting generalizing u with
  | nil => exact hgone
  | cons taskId waiting ih => exact ih _ (hgone.settleRunner _)

/-! ### A handshake goes on -/

/-- A handshake that waits for neither side has no callbacks. -/
theorem none_of_awaits (hget : s.attempts.get? taskId = some attempt)
    (hstage : attempt.stage.awaitsRunner = false) : s.runnerAcceptRejects.get? taskId = none := by
  by_contra hsome
  obtain ⟨runnerId, hentry⟩ := Option.ne_none_iff_exists'.mp hsome
  have hawaits := (h.awaits hget).1 runnerId hentry
  rw [hstage] at hawaits
  cases hawaits

theorem not_mem_of_awaits (hget : s.attempts.get? taskId = some attempt)
    (hstage : attempt.stage.awaitsRequester = false) : taskId ∉ s.requesterAcceptRejects := by
  intro hentry
  have hawaits := (h.awaits hget).2 hentry
  rw [hstage] at hawaits
  cases hawaits

theorem giveUp (hrunner : s.runnerAcceptRejects.get? taskId = none)
    (hrequester : taskId ∉ s.requesterAcceptRejects) (reason : String) :
    Tidy nanoid (s.giveUp taskId reason) := by
  have hcancel := h.frame (@callbacks_cancelTask s taskId reason)
  have heq := @callbacks_cancelTask s taskId reason
  simp only [callbacks, Prod.mk.injEq] at heq
  apply hcancel.putStage
  · rw [heq.1]
    exact hrunner
  · rw [heq.2.1]
    exact hrequester

/-- The runner is not waited for any more, or it took too long. -/
theorem runnerFailed (hnanoid : Function.Injective nanoid) {error : BrokerError}
    (hrunner : error ≠ .runnerAcceptTimeout → s.runnerAcceptRejects.get? taskId = none)
    (hrequester : taskId ∉ s.requesterAcceptRejects) :
    Tidy nanoid (s.runnerFailed nanoid env taskId attempt error) := by
  have hidle : Tidy nanoid (s.setAcceptInProgress attempt.request false) := h.frame rfl
  cases error with
  | taskReject reason =>
    exact (hidle.finish (hrunner (by simp)) hrequester).settleTasks hnanoid
  | runnerAcceptTimeout =>
    unfold TaskBroker.runnerFailed
    dsimp only
    refine frame ?_ (callbacks_messageRunner _ _)
    apply (hidle.forgetRunner taskId).putStage _ hrequester
    exact get?_delete_self
  | taskDeferred => exact hidle.finish (hrunner (by simp)) hrequester
  | requesterAcceptTimeout => exact hidle.finish (hrunner (by simp)) hrequester
  | runnerUnreachable => exact hidle.finish (hrunner (by simp)) hrequester
  | unexpected message => exact hidle.finish (hrunner (by simp)) hrequester

theorem runnerDropped (hnanoid : Function.Injective nanoid)
    (hrunner : s.runnerAcceptRejects.get? taskId = none)
    (hrequester : taskId ∉ s.requesterAcceptRejects) (attempt : Attempt) :
    Tidy nanoid (s.runnerDropped nanoid config env taskId attempt) := by
  unfold TaskBroker.runnerDropped
  refine (frame ?_ (callbacks_flagRunnerIfUnresponsive _ _ _)).settleTasks hnanoid
  exact (h.finish hrunner hrequester).frame rfl

/-- The requester is waited for from now on. -/
theorem runnerAccepted (hget : s.attempts.get? taskId = some attempt)
    (hrunner : s.runnerAcceptRejects.get? taskId = none)
    (hrequester : taskId ∉ s.requesterAcceptRejects) :
    Tidy nanoid (s.runnerAccepted taskId attempt) := by
  unfold TaskBroker.runnerAccepted
  dsimp only
  split
  · refine frame ?_ (callbacks_messageRequester _ _)
    rw [putStage_eq (by exact hget)]
    refine h.move hget ?_ ?_ ?_ ?_
    · exact rfl
    · intro other hne
      refine ⟨get?_set_of_ne hne, fun _ hentry => hentry, fun hentry => ?_⟩
      exact (OrderedSet.mem_insert.mp hentry).resolve_left hne
    · intro runnerId hentry
      rw [hrunner] at hentry
      cases hentry
    · exact fun _ => ⟨_, get?_set_self, rfl⟩
  · have htrack : Tidy nanoid { s with tasks := s.tasks.set taskId ⟨taskId,
        attempt.offer.runnerId, attempt.request.requesterId, attempt.offer.taskType, false⟩ } :=
      h.frame rfl
    exact htrack.giveUp hrunner hrequester _

theorem requesterFailed {error : BrokerError} (hrunner : s.runnerAcceptRejects.get? taskId = none)
    (hrequester : error ≠ .requesterAcceptTimeout → taskId ∉ s.requesterAcceptRejects) :
    Tidy nanoid (s.requesterFailed taskId error) := by
  cases error with
  | taskReject reason => exact h.giveUp hrunner (hrequester (by simp)) reason
  | runnerUnreachable => exact h.finish hrunner (hrequester (by simp))
  | requesterAcceptTimeout =>
    refine (h.forgetRequester taskId).giveUp hrunner ?_ _
    exact fun hentry => absurd rfl (OrderedSet.mem_delete.mp hentry).1
  | taskDeferred => exact h.giveUp hrunner (hrequester (by simp)) _
  | runnerAcceptTimeout => exact h.giveUp hrunner (hrequester (by simp)) _
  | unexpected message => exact h.giveUp hrunner (hrequester (by simp)) _

theorem sendTaskSettings (hrunner : s.runnerAcceptRejects.get? taskId = none)
    (hrequester : taskId ∉ s.requesterAcceptRejects) (settings : String) :
    Tidy nanoid (s.sendTaskSettings env taskId settings) := by
  unfold TaskBroker.sendTaskSettings
  split
  · exact h.finish hrunner hrequester
  · split
    · case h_1 error _ =>
      have hfail := h.frame (@callbacks_settleTask s taskId fun task =>
        .taskerror task.requesterId taskId (errorText error))
      have heq := @callbacks_settleTask s taskId fun task =>
        .taskerror task.requesterId taskId (errorText error)
      simp only [callbacks, Prod.mk.injEq] at heq
      apply hfail.putStage
      · rw [heq.1]
        exact hrunner
      · rw [heq.2.1]
        exact hrequester
    · exact h.putStage hrunner hrequester _

theorem armTask (hrunner : s.runnerAcceptRejects.get? taskId = none)
    (hrequester : taskId ∉ s.requesterAcceptRejects) (settings : String) :
    Tidy nanoid (s.armTask taskId settings) := by
  unfold TaskBroker.armTask
  split
  · exact h.finish hrunner hrequester
  · refine frame ?_ (callbacks_messageRunner _ _)
    case h_2 task _ =>
      have htimer : Tidy nanoid { s with
          tasks := s.tasks.set taskId { task with timeout := true } } := h.frame rfl
      exact htimer.putStage hrunner hrequester _

/-- A handshake goes on, and its message could be sent or its callbacks are gone. -/
theorem advance (hnanoid : Function.Injective nanoid)
    (hclean : Clean s (env, .advance taskId callback))
    (ht : s.advance nanoid config env taskId callback = some t) : Tidy nanoid t := by
  unfold TaskBroker.advance at ht
  cases hget : s.attempts.get? taskId with
  | none =>
    rw [hget] at ht
    cases ht
  | some attempt =>
    rw [hget] at ht
    dsimp only at ht
    cases hstage : attempt.stage with
    | offering promise =>
      have hrequester := h.not_mem_of_awaits hget (by rw [hstage]; rfl)
      rw [hstage] at ht
      cases callback with
      | ok _ =>
        cases ht
        apply h.settleStage
        · intro attempt' runnerId hget' hentry
          obtain rfl := Option.some.inj (hget.symm.trans hget')
          have hawaits := (h.awaits hget).1 runnerId hentry
          rwa [hstage] at hawaits
        · exact fun _ _ hentry => absurd hentry hrequester
      | error error =>
        cases ht
        apply h.runnerFailed hnanoid _ hrequester
        exact hclean.offering taskId error attempt promise rfl hget hstage
    | awaitingRunner promise =>
      have hrequester := h.not_mem_of_awaits hget (by rw [hstage]; rfl)
      rw [hstage] at ht
      cases promise with
      | pending => cases ht
      | resolved _ =>
        cases ht
        exact h.runnerAccepted hget (h.none_of_awaits hget (by rw [hstage]; rfl)) hrequester
      | rejected error =>
        cases ht
        apply h.runnerFailed hnanoid _ hrequester
        intro hne
        apply h.none_of_awaits hget
        rw [hstage]
        exact decide_eq_false hne
    | dropping =>
      have hrunner := h.none_of_awaits hget (by rw [hstage]; rfl)
      have hrequester := h.not_mem_of_awaits hget (by rw [hstage]; rfl)
      rw [hstage] at ht
      cases callback with
      | ok _ =>
        cases ht
        exact h.runnerDropped hnanoid hrunner hrequester attempt
      | error _ =>
        cases ht
        exact h.finish hrunner hrequester
    | readying promise =>
      have hrunner := h.none_of_awaits hget (by rw [hstage]; rfl)
      rw [hstage] at ht
      cases callback with
      | ok _ =>
        cases ht
        apply h.settleStage
        · intro _ runnerId _ hentry
          rw [hrunner] at hentry
          cases hentry
        · intro attempt' hget' hentry
          obtain rfl := Option.some.inj (hget.symm.trans hget')
          have hawaits := (h.awaits hget).2 hentry
          rwa [hstage] at hawaits
      | error error =>
        cases ht
        apply h.requesterFailed hrunner
        exact hclean.readying taskId error attempt promise rfl hget hstage
    | awaitingRequester promise =>
      have hrunner := h.none_of_awaits hget (by rw [hstage]; rfl)
      rw [hstage] at ht
      cases promise with
      | pending => cases ht
      | resolved settings =>
        cases ht
        exact h.sendTaskSettings hrunner (h.not_mem_of_awaits hget (by rw [hstage]; rfl)) settings
      | rejected error =>
        cases ht
        apply h.requesterFailed hrunner
        intro hne
        apply h.not_mem_of_awaits hget
        rw [hstage]
        exact decide_eq_false hne
    | failing error =>
      have hrunner := h.none_of_awaits hget (by rw [hstage]; rfl)
      have hrequester := h.not_mem_of_awaits hget (by rw [hstage]; rfl)
      rw [hstage] at ht
      cases callback with
      | ok _ =>
        cases ht
        exact h.requesterFailed hrunner fun _ => hrequester
      | error _ =>
        cases ht
        exact h.requesterFailed hrunner fun _ => hrequester
    | arming settings =>
      have hrunner := h.none_of_awaits hget (by rw [hstage]; rfl)
      have hrequester := h.not_mem_of_awaits hget (by rw [hstage]; rfl)
      rw [hstage] at ht
      cases ht
      exact h.armTask hrunner hrequester settings
    | sendingSettings =>
      have hrunner := h.none_of_awaits hget (by rw [hstage]; rfl)
      have hrequester := h.not_mem_of_awaits hget (by rw [hstage]; rfl)
      rw [hstage] at ht
      cases callback with
      | ok _ =>
        cases ht
        exact h.finish hrunner hrequester
      | error _ =>
        cases ht
        exact h.requesterFailed hrunner fun _ => hrequester
    | cancelling =>
      have hrunner := h.none_of_awaits hget (by rw [hstage]; rfl)
      have hrequester := h.not_mem_of_awaits hget (by rw [hstage]; rfl)
      rw [hstage] at ht
      cases ht
      exact h.finish hrunner hrequester

/-! ### Messages -/

theorem onRunnerMessage (hnanoid : Function.Injective nanoid) (runnerId : String)
    (message : RunnerMessage) : Tidy nanoid (s.onRunnerMessage nanoid env runnerId message) := by
  unfold TaskBroker.onRunnerMessage
  split
  · exact h
  · have hheard : Tidy nanoid { s with
        silentRunnersSince := s.silentRunnersSince.delete runnerId } := h.frame rfl
    have hreset : ∀ taskId, Tidy nanoid (resetAcceptTimeoutsOnOwnTask runnerId taskId
        { s with silentRunnersSince := s.silentRunnersSince.delete runnerId }) := by
      intro taskId
      unfold resetAcceptTimeoutsOnOwnTask
      split
      · exact hheard.frame rfl
      · exact hheard
    cases message with
    | taskaccepted taskId => exact hheard.settleRunner _
    | taskrejected taskId reason => exact hheard.settleRunner _
    | taskdeferred taskId => exact hheard.settleRunner _
    | taskoffer offerId taskType validFor =>
      refine settleTasks ?_ hnanoid
      exact hheard.frame rfl
    | taskdone taskId data => exact (hreset taskId).frame (callbacks_settleTask _)
    | taskerror taskId error => exact (hreset taskId).frame (callbacks_settleTask _)
    | taskdatarequest taskId requestId params => exact hheard.frame (callbacks_askRequester _)
    | nodetypesrequest taskId requestId params => exact hheard.frame (callbacks_askRequester _)
    | rpc taskId callId name params => exact hheard.frame (callbacks_askRequester _)
    | info => exact hheard

theorem onRequesterMessage (hnanoid : Function.Injective nanoid) (requesterId : String)
    (message : RequesterMessage) :
    Tidy nanoid (s.onRequesterMessage nanoid env requesterId message) := by
  cases message with
  | tasksettings taskId settings => exact h.settleRequester _
  | taskcancel taskId reason => exact h.frame (callbacks_cancelTask reason)
  | taskrequest requestId taskType => exact h.taskRequested hnanoid requestId requesterId taskType
  | taskdataresponse taskId requestId data => exact h.frame (callbacks_answerRunner env _)
  | nodetypesresponse taskId requestId nodeTypes => exact h.frame (callbacks_answerRunner env _)
  | rpcresponse taskId callId data => exact h.frame (callbacks_answerRunner env _)

theorem handleTaskTimeout (ht : s.handleTaskTimeout config taskId = some t) : Tidy nanoid t := by
  unfold TaskBroker.handleTaskTimeout at ht
  split at ht
  · cases ht
  · split at ht
    · cases ht
    · split at ht
      · cases ht
        refine frame ?_ (callbacks_messageRunner _ _)
        exact h.frame rfl
      · cases ht
        exact h.frame (callbacks_settleTask _)

theorem taskTimedOut (ht : s.taskTimedOut taskId callback = some t) : Tidy nanoid t := by
  unfold TaskBroker.taskTimedOut at ht
  split at ht
  · cases ht
  · have hnoted : Tidy nanoid { s with expiring := s.expiring.erase taskId } := h.frame rfl
    cases callback with
    | ok _ =>
      cases ht
      exact hnoted.frame (callbacks_settleTask _)
    | error _ =>
      cases ht
      exact hnoted

end Tidy

end Tidy

/-! ## The runs -/

section Runs

variable {nanoid : ℕ → String} {config : TaskRunnersConfig} {s t : TaskBroker}
  {label : Surroundings × Event}

/-- **A step that is clean keeps the invariant.** -/
theorem next_tidy (h : Tidy nanoid s) (hnanoid : Function.Injective nanoid) (hclean : Clean s label)
    (ht : next nanoid config s label = some t) : Tidy nanoid t := by
  obtain ⟨env, event⟩ := label
  cases event with
  | registerRunner runner =>
    cases ht
    refine Tidy.frame ?_ (callbacks_messageRunner _ _)
    exact h.frame rfl
  | deregisterRunner runnerId error =>
    cases ht
    exact h.deregisterRunner runnerId error
  | failTasks taskIds error =>
    cases ht
    exact h.frame (callbacks_failTasks taskIds error)
  | registerRequester requesterId =>
    cases ht
    exact h.frame rfl
  | deregisterRequester requesterId =>
    cases ht
    exact h.frame rfl
  | runnerMessage runnerId message =>
    cases ht
    exact h.onRunnerMessage hnanoid runnerId message
  | requesterMessage requesterId message =>
    cases ht
    exact h.onRequesterMessage hnanoid requesterId message
  | requesterReject taskId reason =>
    cases ht
    exact h.settleRequester _
  | requestTimeout requestId =>
    cases ht
    exact h.frame (callbacks_handleRequestTimeout env requestId)
  | runnerAcceptTimeout taskId =>
    cases ht
    exact h.runnerTimeout
  | requesterAcceptTimeout taskId =>
    cases ht
    exact h.requesterTimeout
  | taskTimeout taskId => exact h.handleTaskTimeout ht
  | taskTimedOut taskId callback => exact h.taskTimedOut ht
  | advance taskId callback => exact h.advance hnanoid hclean ht
  | startDraining =>
    cases ht
    exact h.frame rfl

/-- What the invariant tells about what is kept. -/
theorem Tidy.noResidue (h : Tidy nanoid s) : NoResidue s := by
  constructor
  · intro taskId hentry
    obtain ⟨runnerId, hentry⟩ := mem_keys.mp hentry
    obtain ⟨attempt, hget, hawaits, -⟩ := h.runner taskId runnerId hentry
    exact ⟨attempt, hget, hawaits⟩
  · exact h.requester
  · intro runnerId hbusy
    by_contra hidle
    push Not at hidle
    obtain ⟨hoffers, htasks, hattempts⟩ := hidle
    apply absurd hbusy
    rw [Bool.not_eq_false]
    unfold isSilent getInFlightTaskIds
    simp only [List.any_eq_true, decide_eq_true_eq, not_exists, not_and, ne_eq, not_not,
      List.map_eq_nil_iff, List.filter_eq_nil_iff]
    refine ⟨hoffers, htasks, ?_⟩
    rintro runnerId' hvalue rfl
    obtain ⟨taskId, hentry⟩ := mem_values.mp hvalue
    obtain ⟨attempt, hget, hawaits, hrunner⟩ := h.runner taskId runnerId' hentry
    exact hattempts taskId attempt hget hawaits hrunner

/-- **Nothing is left behind.** In a run in which no message of a handshake fails to be sent while
its callbacks are still there, the callbacks that are kept are those of handshakes that go on. -/
theorem noResidue_of_clean (hnanoid : Function.Injective nanoid)
    (h : ((broker nanoid config).restrict fun s label _ => Clean s label).Reachable s) :
    NoResidue s := by
  apply @Tidy.noResidue nanoid
  apply h.invariant (I := Tidy nanoid)
  · rintro s rfl
    exact Tidy.initial
  · exact fun hu hstep => next_tidy hu hnanoid hstep.2 hstep.1

theorem clean_of_ne (h : ∀ taskId error, label.2 ≠ .advance taskId (.error error)) :
    Clean s label :=
  ⟨fun taskId error _ _ heq => absurd heq (h taskId error),
    fun taskId error _ _ heq => absurd heq (h taskId error)⟩

theorem noResidue_taskRun : ∃ s, ((broker (fun n => "task-" ++ Nat.repr n) ⟨false, 20⟩).restrict
      fun s label _ => Clean s label).Reachable s ∧
    s.sent.filterMap finalTask = ["task-0"] ∧ NoResidue s := by
  have hrun : ∃ s, follow (next (fun n => "task-" ++ Nat.repr n) ⟨false, 20⟩)
      (taskRun.map fun event => (⟨0, fun _ => true⟩, event)) .initial = some s ∧
      s.sent.filterMap finalTask = ["task-0"] := ⟨_, rfl, rfl⟩
  obtain ⟨s, hs, hfinal⟩ := hrun
  have hclean : ∀ event ∈ taskRun, ∀ taskId error, event ≠ .advance taskId (.error error) := by
    simp [taskRun]
  have hreach : ((broker (fun n => "task-" ++ Nat.repr n) ⟨false, 20⟩).restrict
      fun s label _ => Clean s label).Reachable s := by
    refine ⟨.initial, _, rfl, (run_of_follow id hs).restrict_of_forall ?_⟩
    intro label hlabel u v
    obtain ⟨event, hevent, rfl⟩ := List.mem_map.mp hlabel
    exact clean_of_ne (hclean event hevent)
  exact ⟨s, hreach, hfinal, noResidue_of_clean taskId_injective hreach⟩

/-- The acceptance of an offer cannot be sent. -/
def failedOffer : List Event :=
  [.registerRunner ⟨"runner-1", ["javascript"]⟩, .registerRequester "main",
    .requesterMessage "main" (.taskrequest "request-1" "javascript"),
    .runnerMessage "runner-1" (.taskoffer "offer-1" "javascript" 5000),
    .advance "task-0" (.error (.unexpected "Cannot send"))]

/-- The handshake is over, and its runner counts as waiting for it. -/
theorem not_noResidue :
    ∃ s, (broker (fun n => "task-" ++ Nat.repr n) ⟨false, 20⟩).Reachable s ∧ ¬ NoResidue s := by
  have hrun : ∃ s, follow (next (fun n => "task-" ++ Nat.repr n) ⟨false, 20⟩)
      (failedOffer.map fun event => (⟨0, fun _ => true⟩, event)) .initial = some s ∧
      s.runnerAcceptRejects.keys = ["task-0"] ∧ s.attempts.get? "task-0" = none :=
    ⟨_, rfl, rfl, rfl⟩
  obtain ⟨s, hs, hkeys, hnone⟩ := hrun
  refine ⟨s, ⟨.initial, _, rfl, run_of_follow id hs⟩, fun h => ?_⟩
  obtain ⟨attempt, hget, -⟩ := h.runner "task-0" (hkeys ▸ List.mem_singleton_self _)
  rw [hnone] at hget
  cases hget

end Runs

end N8n.TaskRunners
