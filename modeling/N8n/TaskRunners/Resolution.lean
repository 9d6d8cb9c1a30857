import N8n.TaskRunners.Orderly
import Std.Data.String.ToNat

/-!
# Requests, offers and tasks are settled at most once

Each function of the broker settles nothing, or it settles what it settles in order. So however the
events are ordered, a request is not told twice that a runner is ready or that it has expired, it is
in one handshake at a time, an offer is accepted once, and a task has one final message.

## Main results

* `Quiet.cancelTask`, `Quiet.settleRunner`, `Quiet.requesterFailed`: functions that settle nothing
* `Orderly.settleTasks`, `Orderly.runnerFailed`, `Orderly.runnerAccepted`: functions that keep the
  invariant
* `next_orderly`: every event keeps the invariant
* `settled_once`: requests, offers and tasks are settled at most once in every run
-/

namespace N8n.TaskRunners

open TaskBroker OrderedMap

/-! ## Each function settles nothing, or keeps the invariant -/

namespace Quiet

variable {s t : TaskBroker} {taskId : String} {attempt : Attempt} {message : BrokerMessage}

/-- The part of a state that the invariant is about. -/
def core (s : TaskBroker) :=
  (s.pendingTaskRequests, s.pendingTaskOffers, s.tasks, s.attempts, s.sent, s.requested, s.offered,
    s.drawn, s.objects)

theorem of_core (h : core t = core s) : Quiet s t := by
  simp only [core, Prod.mk.injEq] at h
  obtain ⟨hrequests, hoffers, htasks, hattempts, hsent, hrequested, hoffered, hdrawn, hobjects⟩ := h
  constructor
  case requests => exact hrequests
  case offers => exact hoffers ▸ .refl _
  case counts => exact ⟨hrequested, hoffered, hdrawn, hobjects⟩
  case tasks => exact fun taskId task hget => ⟨task, htasks ▸ hget, rfl⟩
  case attempts => exact fun taskId attempt hget => ⟨attempt, hattempts ▸ hget, rfl, id, id⟩
  case sent => exact ⟨[], by rw [hsent, List.append_nil], fun _ h => absurd h List.not_mem_nil⟩

theorem messageRunner (h : message.Neutral) (runnerId : String) :
    Quiet s (s.messageRunner runnerId message) := by
  obtain ⟨messages, heq, hm⟩ := messageRunner_eq runnerId message s
  rw [heq]
  refine { Quiet.refl s with sent := ⟨messages, rfl, fun m hin => ?_⟩ }
  obtain rfl | rfl := hm
  · exact List.mem_singleton.mp hin ▸ h
  · exact absurd hin List.not_mem_nil

theorem messageRequester (h : message.Neutral) (requesterId : String) :
    Quiet s (s.messageRequester requesterId message) := by
  obtain ⟨messages, heq, hm⟩ := messageRequester_eq requesterId message s
  rw [heq]
  refine { Quiet.refl s with sent := ⟨messages, rfl, fun m hin => ?_⟩ }
  obtain rfl | rfl := hm
  · exact List.mem_singleton.mp hin ▸ h
  · exact absurd hin List.not_mem_nil

theorem untrackTask : Quiet s (s.untrackTask taskId) := by
  refine { Quiet.refl s with tasks := fun taskId' task hget => ?_ }
  unfold TaskBroker.untrackTask at hget
  dsimp only at hget
  rw [get?_delete] at hget
  split_ifs at hget
  exact ⟨task, hget, rfl⟩

theorem cancelTask (reason : String) : Quiet s (s.cancelTask taskId reason) := by
  unfold TaskBroker.cancelTask
  split
  · exact .refl s
  · exact untrackTask.trans (messageRunner ⟨rfl, rfl, rfl⟩ _)

theorem discardOffers (shouldDiscard : TaskOffer → Bool) :
    Quiet s (s.discardOffers shouldDiscard) :=
  { Quiet.refl s with offers := List.filter_sublist }

theorem reportUnresponsive (runnerId : String) : Quiet s (s.reportUnresponsive runnerId).2 := by
  unfold TaskBroker.reportUnresponsive
  split <;> exact of_core rfl

theorem flagSilentRunner (env : Surroundings) (runner : TaskRunner) :
    Quiet s (s.flagSilentRunner env runner) := by
  unfold TaskBroker.flagSilentRunner
  split
  · exact of_core rfl
  · split
    · exact of_core rfl
    · split
      · dsimp only
        split
        · exact (reportUnresponsive _).trans (of_core rfl)
        · exact reportUnresponsive _
      · exact .refl s

theorem foldl {α : Type} {f : TaskBroker → α → TaskBroker} (h : ∀ s a, Quiet s (f s a))
    (l : List α) : Quiet s (l.foldl f s) := by
  induction l generalizing s with
  | nil => exact .refl s
  | cons a l ih => exact (h s a).trans ih

theorem flagSilentRunners (env : Surroundings) (taskType : String) :
    Quiet s (s.flagSilentRunners env taskType) :=
  (discardOffers _).trans (foldl (fun _ runner => flagSilentRunner env runner) _)

theorem flagRunnerIfUnresponsive (env : Surroundings) (config : TaskRunnersConfig)
    (runnerId : String) : Quiet s (s.flagRunnerIfUnresponsive env config runnerId) := by
  unfold TaskBroker.flagRunnerIfUnresponsive
  dsimp only
  generalize (min _ _ : ℕ) = failures
  have hcount : Quiet s { s with
      consecutiveAcceptTimeouts :=
        s.consecutiveAcceptTimeouts.set runnerId ⟨failures, monotonicNowMs env⟩ } :=
    of_core rfl
  split
  · exact .refl s
  · split
    · exact hcount
    · have hreport := hcount.trans (reportUnresponsive runnerId)
      split
      · exact hreport.trans (of_core rfl)
      · exact hreport

/-- The stage of a handshake changes. -/
theorem settleStage {settle : Stage → Stage}
    (h : ∀ attempt, s.attempts.get? taskId = some attempt →
      ((settle attempt.stage).holding → attempt.stage.holding) ∧
      ((settle attempt.stage).accepting → attempt.stage.accepting)) :
    Quiet s (s.settleStage taskId settle) := by
  unfold TaskBroker.settleStage
  split
  · exact .refl s
  · case h_2 attempt hget =>
    refine { Quiet.refl s with attempts := fun taskId' attempt' hget' => ?_ }
    dsimp only at hget'
    rw [get?_set] at hget'
    split_ifs at hget' with hid
    · cases hget'
      exact ⟨attempt, hid ▸ hget, rfl, h attempt hget⟩
    · exact ⟨attempt', hget', rfl, id, id⟩

theorem settleRunnerStage (outcome : AcceptPromise Unit) :
    Quiet s (s.settleStage taskId (settleRunnerPromise outcome)) := by
  apply settleStage
  intro attempt _
  cases attempt.stage <;> exact ⟨id, id⟩

theorem settleRequesterStage (outcome : AcceptPromise String) :
    Quiet s (s.settleStage taskId (settleRequesterPromise outcome)) := by
  apply settleStage
  intro attempt _
  cases attempt.stage <;> exact ⟨id, id⟩

theorem settleRunner (outcome : AcceptPromise Unit) : Quiet s (s.settleRunner taskId outcome) := by
  unfold TaskBroker.settleRunner
  split
  · exact .refl s
  · exact (settleRunnerStage outcome).trans (of_core rfl)

theorem settleRequester (outcome : AcceptPromise String) :
    Quiet s (s.settleRequester taskId outcome) := by
  unfold TaskBroker.settleRequester
  split
  · exact (settleRequesterStage outcome).trans (of_core rfl)
  · exact .refl s

/-- A handshake that holds its request goes to a stage in which it does not wait for its runner. -/
theorem putStage {stage : Stage} (hget : s.attempts.get? taskId = some attempt)
    (hhold : attempt.stage.holding) (hstage : stage.accepting → attempt.stage.accepting) :
    Quiet s (s.putStage taskId stage) := by
  apply settleStage
  intro attempt' hget'
  obtain rfl := Option.some.inj (hget.symm.trans hget')
  exact ⟨fun _ => hhold, hstage⟩

theorem finish : Quiet s (s.finish taskId) := by
  refine { Quiet.refl s with attempts := fun taskId' attempt hget => ?_ }
  unfold TaskBroker.finish at hget
  dsimp only at hget
  rw [get?_delete] at hget
  split_ifs at hget
  exact ⟨attempt, hget, rfl, id, id⟩

theorem attempts_messageRunner (runnerId : String) (message : BrokerMessage) :
    (s.messageRunner runnerId message).attempts = s.attempts := by
  obtain ⟨messages, heq, -⟩ := messageRunner_eq runnerId message s
  rw [heq]

theorem attempts_cancelTask (reason : String) :
    (s.cancelTask taskId reason).attempts = s.attempts := by
  unfold TaskBroker.cancelTask
  split
  · rfl
  · exact attempts_messageRunner _ _

section Id

variable (hget : s.attempts.get? taskId = some attempt) (hhold : attempt.stage.holding)
include hget hhold

theorem giveUp (reason : String) : Quiet s (s.giveUp taskId reason) := by
  apply (cancelTask reason).trans
  refine putStage ?_ hhold (fun h => by cases h)
  rw [attempts_cancelTask]
  exact hget

theorem requesterFailed (error : BrokerError) : Quiet s (s.requesterFailed taskId error) := by
  cases error with
  | taskReject reason => exact giveUp hget hhold reason
  | runnerUnreachable => exact finish
  | requesterAcceptTimeout =>
    have hforget : Quiet s { s with
        requesterAcceptRejects := s.requesterAcceptRejects.delete taskId } := of_core rfl
    exact hforget.trans (giveUp (by exact hget) hhold _)
  | taskDeferred => exact giveUp hget hhold _
  | runnerAcceptTimeout => exact giveUp hget hhold _
  | unexpected message => exact giveUp hget hhold _

theorem armTask (settings : String) : Quiet s (s.armTask taskId settings) := by
  unfold TaskBroker.armTask
  split
  · exact finish
  · case h_2 task htask =>
    have htimer : Quiet s { s with tasks := s.tasks.set taskId { task with timeout := true } } := by
      refine { Quiet.refl s with tasks := fun taskId' task' hget' => ?_ }
      dsimp only at hget'
      rw [get?_set] at hget'
      split_ifs at hget' with hid
      · cases hget'
        exact ⟨task, hid ▸ htask, rfl⟩
      · exact ⟨task', hget', rfl⟩
    refine htimer.trans (.trans ?_ (messageRunner ⟨rfl, rfl, rfl⟩ _))
    exact putStage (by exact hget) hhold (fun h => by cases h)

end Id

theorem askRequester {message : String → BrokerMessage} (h : ∀ id, (message id).Neutral) :
    Quiet s (s.askRequester taskId message) := by
  unfold TaskBroker.askRequester
  split
  · exact .refl s
  · exact messageRequester (h _) _

end Quiet

namespace Orderly

variable {nanoid : ℕ → String} {s : TaskBroker} {taskId : String} {config : TaskRunnersConfig}
  {env : Surroundings} {attempt : Attempt}

section Orderly

variable (h : Orderly nanoid s)
include h

theorem failTask (error : String) : Orderly nanoid (s.failTask taskId error) :=
  h.settle taskId fun _ => ⟨rfl, rfl, fun _ => rfl⟩

theorem taskErrorHandler (error : String) : Orderly nanoid (s.taskErrorHandler taskId error) :=
  h.settle taskId fun _ => ⟨rfl, rfl, fun hid => congrArg some hid⟩

theorem taskDoneHandler (data : String) : Orderly nanoid (s.taskDoneHandler taskId data) :=
  h.settle taskId fun _ => ⟨rfl, rfl, fun hid => congrArg some hid⟩

theorem failTasks (taskIds : List String) (error : String) :
    Orderly nanoid (s.failTasks taskIds error) := by
  unfold TaskBroker.failTasks
  induction taskIds generalizing s with
  | nil => exact h
  | cons taskId taskIds ih => exact ih (h.failTask error)

theorem deregisterRunner (runnerId error : String) :
    Orderly nanoid (s.deregisterRunner runnerId error) := by
  unfold TaskBroker.deregisterRunner
  refine (h.quiet (.trans (.trans ?_ (.discardOffers _)) (.foldl ?_ _))).failTasks _ _
  · exact .of_core rfl
  · exact fun _ _ => .settleRunner _

/-! ### Matching -/

/-- One round of matching. The requests that are still to be looked at are pending. -/
theorem settleRequests (hnanoid : Function.Injective nanoid) (requests : List TaskRequest)
    (hpending : ∀ request ∈ requests, request ∈ s.pendingTaskRequests)
    (hnodup : (requests.map TaskRequest.object).Nodup) :
    Orderly nanoid (requests.foldl (settleRequest nanoid) s) := by
  induction requests generalizing s with
  | nil => exact h
  | cons request requests ih =>
    obtain ⟨hnot, hnodup⟩ := List.nodup_cons.mp hnodup
    have hrest : ∀ other ∈ requests, other ∈ s.pendingTaskRequests :=
      fun other hin => hpending other (List.mem_cons_of_mem _ hin)
    rw [List.foldl_cons]
    unfold settleRequest
    split
    · exact ih h hrest hnodup
    · case isFalse hidle =>
      split
      · exact ih h hrest hnodup
      · case h_2 offer hoffer =>
        have hfalse : request.acceptInProgress = false := by simpa using hidle
        apply ih (h.match hnanoid (hpending request List.mem_cons_self) hfalse hoffer) _ hnodup
        intro other hin
        -- the flag of another request is not touched
        have hne : other.object ≠ request.object :=
          fun heq => hnot (heq ▸ List.mem_map_of_mem hin)
        have hkept : other ∈ (s.setAcceptInProgress request true).pendingTaskRequests :=
          List.mem_map.mpr ⟨other, hrest other hin, if_neg hne⟩
        unfold acceptOffer messageRunner
        dsimp only
        split <;> exact hkept

theorem settleTasks (hnanoid : Function.Injective nanoid) :
    Orderly nanoid (s.settleTasks nanoid env) := by
  unfold TaskBroker.settleTasks
  have hq : Quiet s ((s.expireTasks env).discardOffersFromUnreachableRunners env) :=
    (Quiet.discardOffers _).trans (.discardOffers _)
  have hclean := h.quiet hq
  exact hclean.settleRequests hnanoid _ (fun _ hin => hin) hclean.objects

theorem taskRequested (hnanoid : Function.Injective nanoid)
    (requestId requesterId taskType : String) :
    Orderly nanoid (s.taskRequested nanoid env requestId requesterId taskType) := by
  unfold TaskBroker.taskRequested
  dsimp only
  split
  · exact h.refuse requesterId requestId "draining"
  · exact (h.request requestId requesterId taskType).settleTasks hnanoid

theorem taskOffered (hnanoid : Function.Injective nanoid) (offer : TaskOffer) :
    Orderly nanoid (s.taskOffered nanoid env offer) :=
  (h.offer offer).settleTasks hnanoid

theorem handleRequestTimeout (requestId : String) :
    Orderly nanoid (s.handleRequestTimeout env requestId) := by
  unfold TaskBroker.handleRequestTimeout
  split
  · exact h
  · case h_2 request hfind =>
    have hq : Quiet s (s.flagSilentRunners env request.taskType) := .flagSilentRunners _ _
    apply (h.quiet hq).resolve rfl rfl rfl
    rw [hq.requests]
    have hid := List.find?_some hfind
    exact List.any_eq_true.mpr ⟨request, List.mem_of_find?_eq_some hfind, hid⟩

end Orderly

/-! ### Handshakes -/

theorem not_inHandshake_finish {object : ℕ} : ¬ InHandshake (s.finish taskId) object taskId := by
  rintro ⟨attempt, hget, -⟩
  unfold TaskBroker.finish at hget
  dsimp only at hget
  rw [get?_delete_self] at hget
  cases hget

/-- The runner did not take the task, or the offer did not get to it. -/
theorem runnerFailed (h : Orderly nanoid s) (hnanoid : Function.Injective nanoid)
    (hget : s.attempts.get? taskId = some attempt) (hhold : attempt.stage.holding)
    (error : BrokerError) : Orderly nanoid (s.runnerFailed nanoid env taskId attempt error) := by
  have hfinish : Orderly nanoid ((s.setAcceptInProgress attempt.request false).finish taskId) :=
    h.release hget hhold .finish fun _ => not_inHandshake_finish
  cases error with
  | taskReject reason => exact hfinish.settleTasks hnanoid
  | runnerAcceptTimeout =>
    unfold TaskBroker.runnerFailed
    dsimp only
    refine quiet ?_ (.messageRunner ⟨rfl, rfl, rfl⟩ _)
    rw [putStage_eq (by exact hget)]
    -- the handshake lets go of its request
    have hdrop : Quiet s (putStage taskId .dropping
        { s with runnerAcceptRejects := s.runnerAcceptRejects.delete taskId }) := by
      have hforget : Quiet s { s with
          runnerAcceptRejects := s.runnerAcceptRejects.delete taskId } := .of_core rfl
      exact hforget.trans (.putStage (by exact hget) hhold (fun h => by cases h))
    rw [putStage_eq (by exact hget)] at hdrop
    refine h.release hget hhold hdrop ?_
    rintro object ⟨attempt', hget', hhold', -⟩
    dsimp only at hget'
    rw [get?_set_self] at hget'
    cases hget'
    cases hhold'
  | taskDeferred => exact hfinish
  | requesterAcceptTimeout => exact hfinish
  | runnerUnreachable => exact hfinish
  | unexpected message => exact hfinish

theorem runnerDropped (h : Orderly nanoid s) (hnanoid : Function.Injective nanoid)
    (attempt : Attempt) : Orderly nanoid (s.runnerDropped nanoid config env taskId attempt) := by
  unfold TaskBroker.runnerDropped
  refine (h.quiet ?_).settleTasks hnanoid
  exact (Quiet.finish.trans (.discardOffers _)).trans (.flagRunnerIfUnresponsive _ _ _)

/-- The runner took the task: the requester is told, or the request has expired in the meantime. -/
theorem runnerAccepted (h : Orderly nanoid s) (hget : s.attempts.get? taskId = some attempt)
    (haccept : attempt.stage.accepting) : Orderly nanoid (s.runnerAccepted taskId attempt) := by
  unfold TaskBroker.runnerAccepted
  dsimp only
  split
  · case isTrue hany =>
    rw [putStage_eq (by exact hget)]
    have htrack := h.track hget haccept (show Task.id ⟨taskId, attempt.offer.runnerId,
      attempt.request.requesterId, attempt.offer.taskType, false⟩ = taskId from rfl)
      (show (Stage.readying .pending).accepting = false from rfl)
    have hforget := htrack.quiet (t := { s with
      tasks := s.tasks.set taskId ⟨taskId, attempt.offer.runnerId,
        attempt.request.requesterId, attempt.offer.taskType, false⟩
      attempts := s.attempts.set taskId { attempt with stage := .readying .pending }
      requesterAcceptRejects := s.requesterAcceptRejects.insert taskId }) (.of_core rfl)
    exact hforget.resolve rfl rfl rfl hany
  · -- the task is not tracked any more when the runner is told
    have hhold : attempt.stage.holding := holding_of_accepting haccept
    unfold giveUp TaskBroker.cancelTask
    dsimp only
    rw [get?_set_self]
    have hcancel : Quiet s ((s.untrackTask taskId).messageRunner attempt.offer.runnerId
        (.taskcancel attempt.offer.runnerId taskId "Task request expired")) :=
      Quiet.untrackTask.trans (.messageRunner ⟨rfl, rfl, rfl⟩ _)
    unfold TaskBroker.untrackTask at hcancel ⊢
    dsimp only
    rw [delete_set]
    refine h.quiet (hcancel.trans (.putStage ?_ hhold (fun h => by cases h)))
    rw [Quiet.attempts_messageRunner]
    exact hget

theorem attempts_failTask (error : String) : (s.failTask taskId error).attempts = s.attempts := by
  unfold TaskBroker.failTask TaskBroker.settleTask
  split
  · rfl
  · obtain ⟨messages, heq, -⟩ := messageRequester_eq _ _ (s.untrackTask taskId)
    rw [heq]
    rfl

section Orderly

variable (h : Orderly nanoid s) {callback : Except BrokerError Unit} {t : TaskBroker}
include h

theorem sendTaskSettings (hget : s.attempts.get? taskId = some attempt)
    (hhold : attempt.stage.holding) (settings : String) :
    Orderly nanoid (s.sendTaskSettings env taskId settings) := by
  unfold TaskBroker.sendTaskSettings
  split
  · exact h.quiet .finish
  · split
    · refine (h.failTask _).quiet (.putStage ?_ hhold (fun h => by cases h))
      rw [attempts_failTask]
      exact hget
    · exact h.quiet (.putStage hget hhold (fun h => by cases h))

theorem answerRunner {message : String → BrokerMessage} (hm : ∀ id, (message id).Neutral) :
    Orderly nanoid (s.answerRunner env taskId message) := by
  unfold TaskBroker.answerRunner
  split
  · exact h
  · split
    · exact h.failTask _
    · exact h.quiet (.messageRunner (hm _) _)

/-- A handshake goes on. -/
theorem advance (hnanoid : Function.Injective nanoid)
    (ht : s.advance nanoid config env taskId callback = some t) : Orderly nanoid t := by
  unfold TaskBroker.advance at ht
  cases hget : s.attempts.get? taskId with
  | none =>
    rw [hget] at ht
    cases ht
  | some attempt =>
    rw [hget] at ht
    dsimp only at ht
    cases hstage : attempt.stage with
    | offering promise =>
      have hhold : attempt.stage.holding := by rw [hstage]; rfl
      have haccept : attempt.stage.accepting := by rw [hstage]; rfl
      rw [hstage] at ht
      cases callback with
      | ok _ =>
        cases ht
        exact h.quiet (.putStage hget hhold fun _ => haccept)
      | error error =>
        cases ht
        exact h.runnerFailed hnanoid hget hhold error
    | awaitingRunner promise =>
      have hhold : attempt.stage.holding := by rw [hstage]; rfl
      have haccept : attempt.stage.accepting := by rw [hstage]; rfl
      rw [hstage] at ht
      cases promise with
      | pending => cases ht
      | resolved _ =>
        cases ht
        exact h.runnerAccepted hget haccept
      | rejected error =>
        cases ht
        exact h.runnerFailed hnanoid hget hhold error
    | dropping =>
      rw [hstage] at ht
      cases callback with
      | ok _ =>
        cases ht
        exact h.runnerDropped hnanoid attempt
      | error _ =>
        cases ht
        exact h.quiet .finish
    | readying promise =>
      have hhold : attempt.stage.holding := by rw [hstage]; rfl
      rw [hstage] at ht
      cases callback with
      | ok _ =>
        cases ht
        exact h.quiet (.putStage hget hhold fun h => by cases h)
      | error error =>
        cases ht
        exact h.quiet (.requesterFailed hget hhold error)
    | awaitingRequester promise =>
      have hhold : attempt.stage.holding := by rw [hstage]; rfl
      rw [hstage] at ht
      cases promise with
      | pending => cases ht
      | resolved settings =>
        cases ht
        exact h.sendTaskSettings hget hhold settings
      | rejected error =>
        cases ht
        exact h.quiet (.requesterFailed hget hhold error)
    | failing error =>
      have hhold : attempt.stage.holding := by rw [hstage]; rfl
      rw [hstage] at ht
      cases callback with
      | ok _ =>
        cases ht
        exact h.quiet (.requesterFailed hget hhold error)
      | error error' =>
        cases ht
        exact h.quiet (.requesterFailed hget hhold error')
    | arming settings =>
      have hhold : attempt.stage.holding := by rw [hstage]; rfl
      rw [hstage] at ht
      cases ht
      exact h.quiet (.armTask hget hhold settings)
    | sendingSettings =>
      have hhold : attempt.stage.holding := by rw [hstage]; rfl
      rw [hstage] at ht
      cases callback with
      | ok _ =>
        cases ht
        exact h.quiet .finish
      | error error =>
        cases ht
        exact h.quiet (.requesterFailed hget hhold error)
    | cancelling =>
      rw [hstage] at ht
      cases ht
      exact h.quiet .finish

theorem onRunnerMessage (hnanoid : Function.Injective nanoid) (runnerId : String)
    (message : RunnerMessage) : Orderly nanoid (s.onRunnerMessage nanoid env runnerId message) := by
  unfold TaskBroker.onRunnerMessage
  split
  · exact h
  · have hheard : Orderly nanoid { s with
        silentRunnersSince := s.silentRunnersSince.delete runnerId } := h.quiet (.of_core rfl)
    have hreset : ∀ taskId, Orderly nanoid (resetAcceptTimeoutsOnOwnTask runnerId taskId
        { s with silentRunnersSince := s.silentRunnersSince.delete runnerId }) := by
      intro taskId
      unfold resetAcceptTimeoutsOnOwnTask
      split
      · exact hheard.quiet (.of_core rfl)
      · exact hheard
    cases message with
    | taskaccepted taskId => exact hheard.quiet (.settleRunner _)
    | taskrejected taskId reason => exact hheard.quiet (.settleRunner _)
    | taskdeferred taskId => exact hheard.quiet (.settleRunner _)
    | taskoffer offerId taskType validFor => exact hheard.taskOffered hnanoid _
    | taskdone taskId data => exact (hreset taskId).taskDoneHandler data
    | taskerror taskId error => exact (hreset taskId).taskErrorHandler error
    | taskdatarequest taskId requestId params =>
      exact hheard.quiet (.askRequester fun _ => ⟨rfl, rfl, rfl⟩)
    | nodetypesrequest taskId requestId params =>
      exact hheard.quiet (.askRequester fun _ => ⟨rfl, rfl, rfl⟩)
    | rpc taskId callId name params => exact hheard.quiet (.askRequester fun _ => ⟨rfl, rfl, rfl⟩)
    | info => exact hheard

theorem onRequesterMessage (hnanoid : Function.Injective nanoid) (requesterId : String)
    (message : RequesterMessage) :
    Orderly nanoid (s.onRequesterMessage nanoid env requesterId message) := by
  cases message with
  | tasksettings taskId settings => exact h.quiet (.settleRequester _)
  | taskcancel taskId reason => exact h.quiet (.cancelTask reason)
  | taskrequest requestId taskType => exact h.taskRequested hnanoid requestId requesterId taskType
  | taskdataresponse taskId requestId data =>
    unfold TaskBroker.onRequesterMessage
    apply h.answerRunner
    exact fun _ => ⟨rfl, rfl, rfl⟩
  | nodetypesresponse taskId requestId nodeTypes =>
    unfold TaskBroker.onRequesterMessage
    apply h.answerRunner
    exact fun _ => ⟨rfl, rfl, rfl⟩
  | rpcresponse taskId callId data =>
    unfold TaskBroker.onRequesterMessage
    apply h.answerRunner
    exact fun _ => ⟨rfl, rfl, rfl⟩

theorem handleTaskTimeout (ht : s.handleTaskTimeout config taskId = some t) : Orderly nanoid t := by
  unfold TaskBroker.handleTaskTimeout at ht
  split at ht
  · cases ht
  · split at ht
    · cases ht
    · split at ht
      · cases ht
        have hnoted : Orderly nanoid { s with expiring := s.expiring ++ [taskId] } :=
          h.quiet (.of_core rfl)
        exact hnoted.quiet (.messageRunner ⟨rfl, rfl, rfl⟩ _)
      · cases ht
        exact h.taskErrorHandler _

theorem taskTimedOut (ht : s.taskTimedOut taskId callback = some t) : Orderly nanoid t := by
  unfold TaskBroker.taskTimedOut at ht
  split at ht
  · cases ht
  · have hnoted : Orderly nanoid { s with expiring := s.expiring.erase taskId } :=
      h.quiet (.of_core rfl)
    cases callback with
    | ok _ =>
      cases ht
      exact hnoted.taskErrorHandler _
    | error _ =>
      cases ht
      exact hnoted

end Orderly

end Orderly

/-! ## The runs -/

section Runs

variable {nanoid : ℕ → String} {config : TaskRunnersConfig} {s t : TaskBroker}

/-- **Every event keeps the invariant.** -/
theorem next_orderly (h : Orderly nanoid s) (hnanoid : Function.Injective nanoid)
    {label : Surroundings × Event} (ht : next nanoid config s label = some t) :
    Orderly nanoid t := by
  obtain ⟨env, event⟩ := label
  cases event with
  | registerRunner runner =>
    cases ht
    have hknown : Orderly nanoid { s with
        knownRunners := s.knownRunners.set runner.id runner } := h.quiet (.of_core rfl)
    exact hknown.quiet (.messageRunner ⟨rfl, rfl, rfl⟩ _)
  | deregisterRunner runnerId error =>
    cases ht
    exact h.deregisterRunner runnerId error
  | failTasks taskIds error =>
    cases ht
    exact h.failTasks taskIds error
  | registerRequester requesterId =>
    cases ht
    exact h.quiet (.of_core rfl)
  | deregisterRequester requesterId =>
    cases ht
    exact h.quiet (.of_core rfl)
  | runnerMessage runnerId message =>
    cases ht
    exact h.onRunnerMessage hnanoid runnerId message
  | requesterMessage requesterId message =>
    cases ht
    exact h.onRequesterMessage hnanoid requesterId message
  | requesterReject taskId reason =>
    cases ht
    exact h.quiet (.settleRequester _)
  | requestTimeout requestId =>
    cases ht
    exact h.handleRequestTimeout requestId
  | runnerAcceptTimeout taskId =>
    cases ht
    exact h.quiet (.settleRunnerStage _)
  | requesterAcceptTimeout taskId =>
    cases ht
    exact h.quiet (.settleRequesterStage _)
  | taskTimeout taskId => exact h.handleTaskTimeout ht
  | taskTimedOut taskId callback => exact h.taskTimedOut ht
  | advance taskId callback => exact h.advance hnanoid ht
  | startDraining =>
    cases ht
    exact h.quiet (.of_core rfl)

theorem orderly_of_reachable (hnanoid : Function.Injective nanoid)
    (h : (broker nanoid config).Reachable s) : Orderly nanoid s := by
  apply h.invariant (I := Orderly nanoid)
  · rintro s rfl
    exact orderly_initial
  · exact fun hu hstep => next_orderly hu hnanoid hstep

/-- **At most once.** However what happens to the broker is ordered, no request is resolved and no
offer is accepted more often than it came in, no request is in two handshakes, and no task has two
final messages. Task ids are drawn at random, so none is drawn twice. -/
theorem settled_once (hnanoid : Function.Injective nanoid)
    (h : (broker nanoid config).Reachable s) : Settlement s :=
  (orderly_of_reachable hnanoid h).settlement

def taskRun : List Event :=
  [.registerRunner ⟨"runner-1", ["javascript"]⟩, .registerRequester "main",
    .requesterMessage "main" (.taskrequest "request-1" "javascript"),
    .runnerMessage "runner-1" (.taskoffer "offer-1" "javascript" 5000),
    .advance "task-0" (.ok ()), .runnerMessage "runner-1" (.taskaccepted "task-0"),
    .advance "task-0" (.ok ()), .advance "task-0" (.ok ()),
    .requesterMessage "main" (.tasksettings "task-0" "code"),
    .advance "task-0" (.ok ()), .advance "task-0" (.ok ()), .advance "task-0" (.ok ()),
    .runnerMessage "runner-1" (.taskdone "task-0" "result")]

theorem taskId_injective : Function.Injective fun n : ℕ => "task-" ++ Nat.repr n := by
  intro m n h
  exact Nat.repr_injective ((String.append_right_inj _).mp h)

theorem settled_once_taskRun :
    ∃ s, (broker (fun n => "task-" ++ Nat.repr n) ⟨false, 20⟩).Reachable s ∧
    s.sent.filterMap resolvedRequest = ["request-1"] ∧
    s.sent.filterMap finalTask = ["task-0"] ∧ Settlement s := by
  have hrun : ∃ s, Transition.System.follow (next (fun n => "task-" ++ Nat.repr n) ⟨false, 20⟩)
      (taskRun.map fun event => (⟨0, fun _ => true⟩, event)) .initial = some s ∧
      s.sent.filterMap resolvedRequest = ["request-1"] ∧
      s.sent.filterMap finalTask = ["task-0"] := ⟨_, rfl, rfl, rfl⟩
  obtain ⟨s, hs, hresolved, hfinal⟩ := hrun
  have hreach : (broker (fun n => "task-" ++ Nat.repr n) ⟨false, 20⟩).Reachable s :=
    ⟨.initial, _, rfl, Transition.System.run_of_follow id hs⟩
  exact ⟨s, hreach, hresolved, hfinal, settled_once taskId_injective hreach⟩

/-- **A task with a final message is over**: it is not tracked, no runner is asked to accept it, and
its id is not drawn again. -/
theorem not_isOpen_of_final (hnanoid : Function.Injective nanoid)
    (h : (broker nanoid config).Reachable s) (hfinal : taskId ∈ s.sent.filterMap finalTask) :
    ¬ IsOpen nanoid s taskId :=
  (orderly_of_reachable hnanoid h).tasks.closed taskId hfinal

theorem not_isOpen_of_final_taskRun : ∃ s : TaskBroker, s.sent.filterMap finalTask = ["task-0"] ∧
    ¬ IsOpen (fun n => "task-" ++ Nat.repr n) s "task-0" := by
  have hrun : ∃ s, Transition.System.follow (next (fun n => "task-" ++ Nat.repr n) ⟨false, 20⟩)
      (taskRun.map fun event => (⟨0, fun _ => true⟩, event)) .initial = some s ∧
      s.sent.filterMap finalTask = ["task-0"] := ⟨_, rfl, rfl⟩
  obtain ⟨s, hs, hfinal⟩ := hrun
  exact ⟨s, hfinal, not_isOpen_of_final taskId_injective
    ⟨.initial, _, rfl, Transition.System.run_of_follow id hs⟩ (by simp [hfinal])⟩

end Runs

end N8n.TaskRunners
