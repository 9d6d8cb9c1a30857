import N8n.Foundations.AtMostOnce
import N8n.Foundations.Custody
import N8n.TaskRunners.TaskBroker

/-!
# What the broker settles

A request is told that a runner is ready or that it has expired, an offer is accepted, a task has
its last message. What is settled is settled once as long as the state is orderly: a ticket stands
for each request and each offer, a task is open until it is settled, and a request that can be
matched is in no handshake.

## Main definitions

* `Settlement`: what is settled at most once
* `Orderly`: the invariant
* `Quiet`: a change that settles nothing

## Main results

* `Orderly.quiet`: a change that settles nothing keeps the invariant
* `Orderly.request`, `Orderly.offer`, `Orderly.match`, `Orderly.release`, `Orderly.track`,
  `Orderly.resolve`, `Orderly.settle`: so do the changes that settle something
-/

namespace N8n.TaskRunners

open TaskBroker OrderedMap

/-! ## What is settled -/

/-- The request that is told that a runner is ready, or that it has expired. -/
def resolvedRequest : BrokerMessage → Option String
  | .taskready _ requestId _ => some requestId
  | .requestexpired _ requestId _ => some requestId
  | _ => none

def acceptedOffer : BrokerMessage → Option String
  | .taskofferaccept _ offerId _ => some offerId
  | _ => none

def finalTask : BrokerMessage → Option String
  | .taskdone _ taskId _ => some taskId
  | .taskerror _ taskId _ => some taskId
  | _ => none

/-- The handshake waits for its runner. -/
def Stage.accepting : Stage → Bool
  | .offering _ | .awaitingRunner _ => true
  | _ => false

/-- The request of the handshake cannot be matched again. -/
def Stage.holding : Stage → Bool
  | .dropping => false
  | _ => true

theorem holding_of_accepting {stage : Stage} (h : stage.accepting) : stage.holding := by
  cases stage with
  | dropping => cases h
  | _ => rfl

/-- A request is in a handshake that goes on. -/
def InHandshake (s : TaskBroker) (object : ℕ) (taskId : String) : Prop :=
  ∃ attempt, s.attempts.get? taskId = some attempt ∧ attempt.stage.holding ∧
    attempt.request.object = object

/-- What is settled at most once. Who asks and who offers draws the ids at random, so that each is
there once; were an id used more often, it would not be settled more often than it was used. -/
structure Settlement (s : TaskBroker) : Prop where
  requests : ∀ requestId,
    (s.sent.filterMap resolvedRequest).count requestId ≤ s.requested.count requestId
  handshakes : Custody.Exclusive (InHandshake s)
  offers : ∀ offerId, (s.sent.filterMap acceptedOffer).count offerId ≤ s.offered.count offerId
  tasks : (s.sent.filterMap finalTask).Nodup

/-! ## The invariant -/

section Invariant

variable {nanoid : ℕ → String}

/-- A task that waits for its runner. -/
def Accepting (s : TaskBroker) (taskId : String) : Prop :=
  ∃ attempt, s.attempts.get? taskId = some attempt ∧ attempt.stage.accepting

def Tracked (s : TaskBroker) (taskId : String) : Prop :=
  ∃ task, s.tasks.get? taskId = some task

def IsOpen (nanoid : ℕ → String) (s : TaskBroker) (taskId : String) : Prop :=
  Tracked s taskId ∨ Accepting s taskId ∨ ∃ n, s.drawn ≤ n ∧ nanoid n = taskId

structure Orderly (nanoid : ℕ → String) (s : TaskBroker) : Prop where
  requests : Tickets (s.sent.filterMap resolvedRequest)
    (s.pendingTaskRequests.map TaskRequest.requestId) s.requested
  offers : Tickets (s.sent.filterMap acceptedOffer)
    (s.pendingTaskOffers.map TaskOffer.offerId) s.offered
  objects : (s.pendingTaskRequests.map TaskRequest.object).Nodup
  pending_lt : ∀ request ∈ s.pendingTaskRequests, request.object < s.objects
  attempt_lt : ∀ object taskId, InHandshake s object taskId → object < s.objects
  /-- A request that can be matched is in no handshake. -/
  idle : ∀ request ∈ s.pendingTaskRequests, request.acceptInProgress = false →
    ∀ taskId, ¬ InHandshake s request.object taskId
  handshakes : Custody.Exclusive (InHandshake s)
  tasks : Once (IsOpen nanoid s) (s.sent.filterMap finalTask)
  keyed : s.tasks.Keyed Task.id
  tracked : ∀ taskId, Tracked s taskId → ¬ Accepting s taskId
  drawn : ∀ n, s.drawn ≤ n → ¬ Tracked s (nanoid n) ∧ s.attempts.get? (nanoid n) = none

theorem orderly_initial : Orderly nanoid .initial where
  requests := tickets_nil
  offers := tickets_nil
  objects := List.nodup_nil
  pending_lt _ h := absurd h List.not_mem_nil
  attempt_lt _ _ h := by obtain ⟨_, h, -⟩ := h; cases h
  idle _ h := absurd h List.not_mem_nil
  handshakes _ _ _ h := by obtain ⟨_, h, -⟩ := h; cases h
  tasks := .nil
  keyed := .empty
  tracked _ h := by obtain ⟨_, h⟩ := h; cases h
  drawn _ _ := by
    refine ⟨?_, rfl⟩
    rintro ⟨_, h⟩
    cases h

theorem Orderly.settlement {s : TaskBroker} (h : Orderly nanoid s) : Settlement s :=
  ⟨h.requests.count_le, h.handshakes, h.offers.count_le, h.tasks.nodup⟩

/-! ## Changes that settle nothing -/

/-- A message about which nothing is to be shown. -/
structure BrokerMessage.Neutral (message : BrokerMessage) : Prop where
  request : resolvedRequest message = none
  offer : acceptedOffer message = none
  task : finalTask message = none

/-- Nothing comes in and nothing is settled; offers, tasks and handshakes may end, and a handshake
may go further. -/
structure Quiet (s t : TaskBroker) : Prop where
  requests : t.pendingTaskRequests = s.pendingTaskRequests
  offers : t.pendingTaskOffers.Sublist s.pendingTaskOffers
  counts : t.requested = s.requested ∧ t.offered = s.offered ∧ t.drawn = s.drawn ∧
    t.objects = s.objects
  tasks : ∀ taskId task, t.tasks.get? taskId = some task →
    ∃ before, s.tasks.get? taskId = some before ∧ before.id = task.id
  attempts : ∀ taskId attempt, t.attempts.get? taskId = some attempt →
    ∃ before, s.attempts.get? taskId = some before ∧ before.request = attempt.request ∧
      (attempt.stage.holding → before.stage.holding) ∧
      (attempt.stage.accepting → before.stage.accepting)
  sent : ∃ messages, t.sent = s.sent ++ messages ∧ ∀ message ∈ messages, message.Neutral

theorem Quiet.refl (s : TaskBroker) : Quiet s s where
  requests := rfl
  offers := .refl _
  counts := ⟨rfl, rfl, rfl, rfl⟩
  tasks _ task h := ⟨task, h, rfl⟩
  attempts _ attempt h := ⟨attempt, h, rfl, id, id⟩
  sent := ⟨[], (List.append_nil _).symm, fun _ h => absurd h List.not_mem_nil⟩

theorem Quiet.trans {s t u : TaskBroker} (h : Quiet s t) (k : Quiet t u) : Quiet s u where
  requests := k.requests.trans h.requests
  offers := k.offers.trans h.offers
  counts := by
    obtain ⟨h₁, h₂, h₃, h₄⟩ := h.counts
    obtain ⟨k₁, k₂, k₃, k₄⟩ := k.counts
    exact ⟨k₁.trans h₁, k₂.trans h₂, k₃.trans h₃, k₄.trans h₄⟩
  tasks taskId task hget := by
    obtain ⟨middle, hmiddle, hid⟩ := k.tasks taskId task hget
    obtain ⟨before, hbefore, hid'⟩ := h.tasks taskId middle hmiddle
    exact ⟨before, hbefore, hid'.trans hid⟩
  attempts taskId attempt hget := by
    obtain ⟨middle, hmiddle, hrequest, hhold, haccept⟩ := k.attempts taskId attempt hget
    obtain ⟨before, hbefore, hrequest', hhold', haccept'⟩ := h.attempts taskId middle hmiddle
    exact ⟨before, hbefore, hrequest'.trans hrequest, hhold' ∘ hhold, haccept' ∘ haccept⟩
  sent := by
    obtain ⟨ms, hms, hneutral⟩ := h.sent
    obtain ⟨ns, hns, hneutral'⟩ := k.sent
    refine ⟨ms ++ ns, ?_, ?_⟩
    · rw [hns, hms, List.append_assoc]
    · rintro m hm
      obtain hm | hm := List.mem_append.mp hm
      · exact hneutral m hm
      · exact hneutral' m hm

variable {s t : TaskBroker} {f : BrokerMessage → Option String} {taskId : String}
  {message : BrokerMessage} {messages : List BrokerMessage} {attempt : Attempt}

theorem Quiet.filterMap_sent (h : Quiet s t) (hf : ∀ m : BrokerMessage, m.Neutral → f m = none) :
    t.sent.filterMap f = s.sent.filterMap f := by
  obtain ⟨ms, hms, hneutral⟩ := h.sent
  rw [hms, List.filterMap_append, List.append_right_eq_self]
  exact List.filterMap_eq_nil_iff.mpr fun m hm => hf m (hneutral m hm)

theorem Quiet.inHandshake (h : Quiet s t) {object : ℕ} (hin : InHandshake t object taskId) :
    InHandshake s object taskId := by
  obtain ⟨attempt, hget, hhold, hobject⟩ := hin
  obtain ⟨before, hbefore, hrequest, hhold', -⟩ := h.attempts taskId attempt hget
  exact ⟨before, hbefore, hhold' hhold, hrequest ▸ hobject⟩

theorem Quiet.accepting (h : Quiet s t) (hin : Accepting t taskId) : Accepting s taskId := by
  obtain ⟨attempt, hget, haccept⟩ := hin
  obtain ⟨before, hbefore, -, -, haccept'⟩ := h.attempts taskId attempt hget
  exact ⟨before, hbefore, haccept' haccept⟩

theorem Quiet.tracked (h : Quiet s t) (hin : Tracked t taskId) : Tracked s taskId := by
  obtain ⟨task, hget⟩ := hin
  obtain ⟨before, hbefore, -⟩ := h.tasks taskId task hget
  exact ⟨before, hbefore⟩

theorem Quiet.isOpen (h : Quiet s t) (hopen : IsOpen nanoid t taskId) : IsOpen nanoid s taskId := by
  obtain htask | haccept | ⟨n, hn, heq⟩ := hopen
  · exact .inl (h.tracked htask)
  · exact .inr (.inl (h.accepting haccept))
  · exact .inr (.inr ⟨n, h.counts.2.2.1 ▸ hn, heq⟩)

theorem Orderly.quiet (h : Orderly nanoid s) (hq : Quiet s t) : Orderly nanoid t := by
  obtain ⟨hrequested, hoffered, hdrawn, hobjects⟩ := hq.counts
  constructor
  case requests =>
    rw [hq.filterMap_sent fun _ hm => hm.request, hq.requests, hrequested]
    exact h.requests
  case offers =>
    rw [hq.filterMap_sent fun _ hm => hm.offer, hoffered]
    exact h.offers.lose (hq.offers.map _)
  case objects => exact hq.requests ▸ h.objects
  case pending_lt => exact hq.requests ▸ hobjects ▸ h.pending_lt
  case attempt_lt => exact fun object taskId hin => hobjects ▸ h.attempt_lt _ _ (hq.inHandshake hin)
  case idle =>
    rw [hq.requests]
    exact fun request hin hidle taskId hshake =>
      h.idle request hin hidle taskId (hq.inHandshake hshake)
  case handshakes =>
    exact fun object taskId taskId' hin hin' =>
      h.handshakes (hq.inHandshake hin) (hq.inHandshake hin')
  case tasks =>
    rw [hq.filterMap_sent fun _ hm => hm.task]
    exact h.tasks.narrow fun taskId => hq.isOpen
  case keyed =>
    intro taskId task hget
    obtain ⟨before, hbefore, hid⟩ := hq.tasks taskId task hget
    exact hid.symm.trans (h.keyed taskId before hbefore)
  case tracked =>
    exact fun taskId hin haccept => h.tracked taskId (hq.tracked hin) (hq.accepting haccept)
  case drawn =>
    intro n hn
    obtain ⟨htask, hattempt⟩ := h.drawn n (hdrawn ▸ hn)
    refine ⟨fun hin => htask (hq.tracked hin), ?_⟩
    by_contra hsome
    obtain ⟨attempt, hget⟩ := Option.ne_none_iff_exists'.mp hsome
    obtain ⟨before, hbefore, -⟩ := hq.attempts _ attempt hget
    rw [hattempt] at hbefore
    cases hbefore

/-! ## What settles something -/

/-- A message to a requester is sent, or there is nobody to send it to. -/
theorem messageRequester_eq (requesterId : String) (message : BrokerMessage) (s : TaskBroker) :
    ∃ messages, s.messageRequester requesterId message = { s with sent := s.sent ++ messages } ∧
      (messages = [message] ∨ messages = []) := by
  unfold messageRequester
  split
  · exact ⟨[message], rfl, .inl rfl⟩
  · exact ⟨[], by rw [List.append_nil], .inr rfl⟩

theorem messageRunner_eq (runnerId : String) (message : BrokerMessage) (s : TaskBroker) :
    ∃ messages, s.messageRunner runnerId message = { s with sent := s.sent ++ messages } ∧
      (messages = [message] ∨ messages = []) := by
  unfold messageRunner
  split
  · exact ⟨[message], rfl, .inl rfl⟩
  · exact ⟨[], by rw [List.append_nil], .inr rfl⟩

/-- What a log has after a message that may have been sent. -/
theorem filterMap_sent (h : messages = [message] ∨ messages = []) :
    (s.sent ++ messages).filterMap f = s.sent.filterMap f ∨
      ∃ id, f message = some id ∧
        (s.sent ++ messages).filterMap f = s.sent.filterMap f ++ [id] := by
  obtain rfl | rfl := h
  · rw [List.filterMap_append]
    cases hf : f message with
    | none => exact .inl (by simp [hf])
    | some id => exact .inr ⟨id, rfl, by simp [hf]⟩
  · exact .inl (by rw [List.append_nil])

theorem filterMap_sent_of_none (h : messages = [message] ∨ messages = []) (hf : f message = none) :
    (s.sent ++ messages).filterMap f = s.sent.filterMap f := by
  obtain hsame | ⟨id, hid, -⟩ := filterMap_sent h
  · exact hsame
  · rw [hf] at hid
    cases hid

/-- A ticket is spent, or lost if nobody is told. -/
theorem tickets_sent {held held' issued : List String} {id : String}
    (hm : messages = [message] ∨ messages = []) (hf : f message = some id)
    (h : Tickets (s.sent.filterMap f) held issued) (hperm : held.Perm (id :: held'))
    (hsub : held'.Sublist held) : Tickets ((s.sent ++ messages).filterMap f) held' issued := by
  obtain hsame | ⟨id', hid', hmore⟩ := filterMap_sent hm
  · rw [hsame]
    exact h.lose hsub
  · rw [hmore]
    rw [hf] at hid'
    cases hid'
    exact h.spend hperm

/-- The first element with a property is taken out of a list. -/
theorem perm_map_eraseP {α : Type} {l : List α} {p : α → Bool} {g : α → String} {id : String}
    (hany : l.any p) (hg : ∀ a, p a → g a = id) :
    (l.map g).Perm (id :: (l.eraseP p).map g) := by
  obtain ⟨a, ha, hp⟩ := List.any_eq_true.mp hany
  obtain ⟨b, l₁, l₂, -, hb, hl, herase⟩ := List.exists_of_eraseP ha hp
  rw [hl] at herase ⊢
  rw [herase, List.map_append, List.map_append, List.map_cons, hg b hb]
  exact List.perm_middle

/-- A new request. -/
theorem Orderly.request (h : Orderly nanoid s) (requestId requesterId taskType : String) :
    Orderly nanoid { s with
      requested := s.requested ++ [requestId]
      pendingTaskRequests := s.pendingTaskRequests ++
        [⟨requestId, requesterId, taskType, false, s.objects⟩]
      objects := s.objects + 1 } := by
  have hnew : ∀ taskId, ¬ InHandshake s s.objects taskId :=
    fun taskId hin => lt_irrefl _ (h.attempt_lt _ _ hin)
  constructor
  case requests =>
    rw [List.map_append]
    exact h.requests.issue requestId
  case offers => exact h.offers
  case objects =>
    rw [List.map_append]
    apply h.objects.append (List.nodup_singleton _)
    intro object hin hself
    obtain ⟨request, hrequest, rfl⟩ := List.mem_map.mp hin
    exact (h.pending_lt request hrequest).ne (List.mem_singleton.mp hself)
  case pending_lt =>
    intro request hin
    obtain hin | hself := List.mem_append.mp hin
    · exact Nat.lt_succ_of_lt (h.pending_lt request hin)
    · rw [List.mem_singleton.mp hself]
      exact Nat.lt_succ_self _
  case attempt_lt => exact fun object taskId hin => Nat.lt_succ_of_lt (h.attempt_lt _ _ hin)
  case idle =>
    intro request hin hidle taskId
    obtain hin | hself := List.mem_append.mp hin
    · exact h.idle request hin hidle taskId
    · rw [List.mem_singleton.mp hself]
      exact hnew taskId
  case handshakes => exact h.handshakes
  case tasks => exact h.tasks
  case keyed => exact h.keyed
  case tracked => exact h.tracked
  case drawn => exact h.drawn

/-- A request that comes in while the broker is draining expires at once. -/
theorem Orderly.refuse (h : Orderly nanoid s) (requesterId requestId reason : String) :
    Orderly nanoid (messageRequester requesterId
      (.requestexpired requesterId requestId reason)
      { s with requested := s.requested ++ [requestId] }) := by
  obtain ⟨messages, heq, hm⟩ := messageRequester_eq requesterId
    (.requestexpired requesterId requestId reason)
    { s with requested := s.requested ++ [requestId] }
  rw [heq]
  constructor
  case requests =>
    obtain hsame | ⟨id, hid, hmore⟩ := @filterMap_sent s resolvedRequest _ _ hm
    · rw [hsame]
      exact h.requests.issue_lose requestId
    · rw [hmore]
      obtain rfl : requestId = id := Option.some.inj hid
      exact h.requests.issue_spend requestId
  case offers =>
    rw [filterMap_sent_of_none hm rfl]
    exact h.offers
  case tasks =>
    rw [filterMap_sent_of_none hm rfl]
    exact h.tasks
  case objects => exact h.objects
  case pending_lt => exact h.pending_lt
  case attempt_lt => exact h.attempt_lt
  case idle => exact h.idle
  case handshakes => exact h.handshakes
  case keyed => exact h.keyed
  case tracked => exact h.tracked
  case drawn => exact h.drawn

/-- A new offer. -/
theorem Orderly.offer (h : Orderly nanoid s) (offer : TaskOffer) :
    Orderly nanoid { s with
      offered := s.offered ++ [offer.offerId]
      pendingTaskOffers := s.pendingTaskOffers ++ [offer] } where
  requests := h.requests
  offers := by
    rw [List.map_append]
    exact h.offers.issue offer.offerId
  objects := h.objects
  pending_lt := h.pending_lt
  attempt_lt := h.attempt_lt
  idle := h.idle
  handshakes := h.handshakes
  tasks := h.tasks
  keyed := h.keyed
  tracked := h.tracked
  drawn := h.drawn

/-- A pending request is resolved and pending no longer. -/
theorem Orderly.resolve (h : Orderly nanoid s) {requesterId requestId : String}
    (hrequest : resolvedRequest message = some requestId) (hoffer : acceptedOffer message = none)
    (htask : finalTask message = none)
    (hany : s.pendingTaskRequests.any fun request => request.requestId = requestId) :
    Orderly nanoid (messageRequester requesterId message
      { s with pendingTaskRequests :=
          s.pendingTaskRequests.eraseP fun request => request.requestId = requestId }) := by
  obtain ⟨messages, heq, hm⟩ := messageRequester_eq requesterId message
    { s with pendingTaskRequests :=
        s.pendingTaskRequests.eraseP fun request => request.requestId = requestId }
  rw [heq]
  have hsub := @List.eraseP_sublist _ (fun request : TaskRequest => request.requestId = requestId)
    s.pendingTaskRequests
  constructor
  case requests =>
    apply tickets_sent hm hrequest h.requests _ (hsub.map _)
    exact perm_map_eraseP hany fun request hid => of_decide_eq_true hid
  case offers =>
    rw [filterMap_sent_of_none hm hoffer]
    exact h.offers
  case tasks =>
    rw [filterMap_sent_of_none hm htask]
    exact h.tasks
  case objects => exact h.objects.sublist (hsub.map _)
  case pending_lt => exact fun request hin => h.pending_lt request (hsub.subset hin)
  case attempt_lt => exact h.attempt_lt
  case idle => exact fun request hin => h.idle request (hsub.subset hin)
  case handshakes => exact h.handshakes
  case keyed => exact h.keyed
  case tracked => exact h.tracked
  case drawn => exact h.drawn

theorem map_setAcceptInProgress {α : Type} {f : TaskRequest → α} {value : Bool}
    (hf : ∀ request : TaskRequest, f { request with acceptInProgress := value } = f request)
    (request : TaskRequest) :
    (s.setAcceptInProgress request value).pendingTaskRequests.map f =
      s.pendingTaskRequests.map f := by
  unfold setAcceptInProgress
  rw [List.map_map]
  apply List.map_congr_left
  intro pending _
  dsimp only [Function.comp_apply]
  split
  · exact hf pending
  · rfl

/-- A pending request is the one whose flag is set, or it is as before. -/
theorem mem_setAcceptInProgress {request pending : TaskRequest} {value : Bool}
    (h : pending ∈ (s.setAcceptInProgress request value).pendingTaskRequests) :
    ∃ before ∈ s.pendingTaskRequests, before.object = pending.object ∧
      (before.object = request.object → pending.acceptInProgress = value) ∧
      (before.object ≠ request.object → pending = before) := by
  obtain ⟨before, hbefore, rfl⟩ := List.mem_map.mp h
  refine ⟨before, hbefore, ?_⟩
  by_cases heq : before.object = request.object
  · rw [if_pos heq]
    exact ⟨rfl, fun _ => rfl, fun hne => absurd heq hne⟩
  · rw [if_neg heq]
    exact ⟨rfl, fun h => absurd h heq, fun _ => rfl⟩

/-- **A match**: the handshake begins. -/
theorem Orderly.match (h : Orderly nanoid s) (hnanoid : Function.Injective nanoid)
    {request : TaskRequest} {offer : TaskOffer} (hmem : request ∈ s.pendingTaskRequests)
    (hidle : request.acceptInProgress = false) {fits : TaskOffer → Bool}
    (hoffer : s.pendingTaskOffers.find? fits = some offer) :
    Orderly nanoid (acceptOffer nanoid offer request
      { s.setAcceptInProgress request true with
        pendingTaskOffers := s.pendingTaskOffers.eraseP fits }) := by
  unfold acceptOffer
  dsimp only
  obtain ⟨messages, heq, hm⟩ := messageRunner_eq offer.runnerId
    (.taskofferaccept offer.runnerId offer.offerId (nanoid s.drawn))
    { s.setAcceptInProgress request true with
      pendingTaskOffers := s.pendingTaskOffers.eraseP fits
      drawn := s.drawn + 1
      runnerAcceptRejects := s.runnerAcceptRejects.set (nanoid s.drawn) offer.runnerId
      attempts := s.attempts.set (nanoid s.drawn) ⟨offer, request, .offering .pending⟩ }
  refine Eq.mpr (congrArg (Orderly nanoid) heq) ?_
  obtain ⟨hfresh, hnone⟩ := h.drawn s.drawn (Nat.le_refl _)
  have hother : ∀ {taskId attempt}, (s.attempts.set (nanoid s.drawn)
      ⟨offer, request, .offering .pending⟩).get? taskId = some attempt → taskId ≠ nanoid s.drawn →
      s.attempts.get? taskId = some attempt := by
    intro taskId attempt hget hne
    rwa [get?_set_of_ne hne] at hget
  have hself : ∀ {attempt}, (s.attempts.set (nanoid s.drawn)
      ⟨offer, request, .offering .pending⟩).get? (nanoid s.drawn) = some attempt →
      attempt.request = request := by
    intro attempt hget
    rw [get?_set_self] at hget
    rw [← Option.some.inj hget]
  have hobjects := @map_setAcceptInProgress s _ TaskRequest.object true (fun _ => rfl) request
  constructor
  case requests =>
    rw [filterMap_sent_of_none hm rfl]
    have hids := @map_setAcceptInProgress s _ TaskRequest.requestId true (fun _ => rfl) request
    exact Eq.mpr (congrArg (Tickets _ · _) hids) h.requests
  case offers =>
    -- the offer that is found first is the one that is taken out
    obtain ⟨hfits, l₁, l₂, hl, hbefore⟩ := List.find?_eq_some_iff_append.mp hoffer
    have herase : s.pendingTaskOffers.eraseP fits = l₁ ++ l₂ := by
      rw [hl, List.eraseP_append_right _ (by simpa using hbefore), List.eraseP_cons_of_pos hfits]
    refine tickets_sent hm rfl h.offers ?_ ((List.eraseP_sublist).map _)
    rw [herase, hl, List.map_append, List.map_append]
    exact List.perm_middle
  case objects => exact Eq.mpr (congrArg List.Nodup hobjects) h.objects
  case pending_lt =>
    intro pending hin
    obtain ⟨before, hbefore, hobject, -⟩ := mem_setAcceptInProgress hin
    exact hobject ▸ h.pending_lt before hbefore
  case attempt_lt =>
    rintro object taskId ⟨attempt, hget, hhold, hobject⟩
    by_cases hid : taskId = nanoid s.drawn
    · subst hid
      rw [← hobject, hself hget]
      exact h.pending_lt request hmem
    · exact h.attempt_lt object taskId ⟨attempt, hother hget hid, hhold, hobject⟩
  case idle =>
    rintro pending hin hfree taskId ⟨attempt, hget, hhold, hobject⟩
    obtain ⟨before, hbefore, hsame, htaken, hothers⟩ := mem_setAcceptInProgress hin
    by_cases hrequest : before.object = request.object
    · rw [htaken hrequest] at hfree
      cases hfree
    · obtain rfl := hothers hrequest
      by_cases hid : taskId = nanoid s.drawn
      · subst hid
        rw [hself hget] at hobject
        exact hrequest hobject.symm
      · exact h.idle pending hbefore hfree taskId ⟨attempt, hother hget hid, hhold, hobject⟩
  case handshakes =>
    rintro object taskId taskId' ⟨attempt, hget, hhold, hobject⟩ ⟨attempt', hget', hhold', hobject'⟩
    by_cases hid : taskId = nanoid s.drawn <;> by_cases hid' : taskId' = nanoid s.drawn
    · rw [hid, hid']
    · -- the request was in no handshake before
      subst hid
      rw [hself hget] at hobject
      subst hobject
      exact absurd ⟨attempt', hother hget' hid', hhold', hobject'⟩
        (h.idle request hmem hidle taskId')
    · subst hid'
      rw [hself hget'] at hobject'
      subst hobject'
      exact absurd ⟨attempt, hother hget hid, hhold, hobject⟩ (h.idle request hmem hidle taskId)
    · exact h.handshakes ⟨attempt, hother hget hid, hhold, hobject⟩
        ⟨attempt', hother hget' hid', hhold', hobject'⟩
  case tasks =>
    rw [filterMap_sent_of_none hm rfl]
    refine h.tasks.narrow ?_
    rintro taskId (htask | ⟨attempt, hget, haccept⟩ | ⟨n, hn, rfl⟩)
    · exact .inl htask
    · by_cases hid : taskId = nanoid s.drawn
      · exact .inr (.inr ⟨s.drawn, Nat.le_refl _, hid.symm⟩)
      · exact .inr (.inl ⟨attempt, hother hget hid, haccept⟩)
    · exact .inr (.inr ⟨n, Nat.le_of_succ_le hn, rfl⟩)
  case keyed => exact h.keyed
  case tracked =>
    rintro taskId htask ⟨attempt, hget, haccept⟩
    by_cases hid : taskId = nanoid s.drawn
    · subst hid
      exact hfresh htask
    · exact h.tracked taskId htask ⟨attempt, hother hget hid, haccept⟩
  case drawn =>
    intro n hn
    obtain ⟨htask, hattempt⟩ := h.drawn n (Nat.le_of_succ_le hn)
    refine ⟨htask, ?_⟩
    have hlater : s.drawn < n := hn
    have hne : nanoid n ≠ nanoid s.drawn := fun heq => hlater.ne' (hnanoid heq)
    exact (get?_set_of_ne hne).trans hattempt

/-- The handshake of a request ends, and the request can be matched again. -/
theorem Orderly.release (h : Orderly nanoid s) (hget : s.attempts.get? taskId = some attempt)
    (hhold : attempt.stage.holding) (hq : Quiet s t)
    (hout : ∀ object, ¬ InHandshake t object taskId) :
    Orderly nanoid (t.setAcceptInProgress attempt.request false) := by
  have ht := h.quiet hq
  have hobjects := @map_setAcceptInProgress t _ TaskRequest.object false (fun _ => rfl)
    attempt.request
  constructor
  case requests =>
    rw [map_setAcceptInProgress fun _ => rfl]
    exact ht.requests
  case offers => exact ht.offers
  case objects => exact hobjects ▸ ht.objects
  case pending_lt =>
    intro pending hin
    obtain ⟨before, hbefore, hobject, -⟩ := mem_setAcceptInProgress hin
    exact hobject ▸ ht.pending_lt before hbefore
  case attempt_lt => exact ht.attempt_lt
  case idle =>
    intro pending hin hfree taskId' hshake
    obtain ⟨before, hbefore, hsame, -, hothers⟩ := mem_setAcceptInProgress hin
    by_cases hrequest : before.object = attempt.request.object
    · -- only this handshake had the request
      have hid : taskId' = taskId := by
        apply h.handshakes (hq.inHandshake hshake)
        exact ⟨attempt, hget, hhold, hrequest.symm.trans hsame⟩
      exact hout _ (hid ▸ hshake)
    · obtain rfl := hothers hrequest
      exact ht.idle pending hbefore hfree taskId' hshake
  case handshakes => exact ht.handshakes
  case tasks => exact ht.tasks
  case keyed => exact ht.keyed
  case tracked => exact ht.tracked
  case drawn => exact ht.drawn

theorem putStage_eq (hget : s.attempts.get? taskId = some attempt) (stage : Stage) :
    s.putStage taskId stage =
      { s with attempts := s.attempts.set taskId { attempt with stage := stage } } := by
  unfold putStage settleStage
  rw [hget]

/-- The runner has the task, which is tracked from now on. -/
theorem Orderly.track (h : Orderly nanoid s) (hget : s.attempts.get? taskId = some attempt)
    (haccept : attempt.stage.accepting) {task : Task} (htask : task.id = taskId) {stage : Stage}
    (hstage : stage.accepting = false) :
    Orderly nanoid { s with
      tasks := s.tasks.set taskId task
      attempts := s.attempts.set taskId { attempt with stage := stage } } := by
  have hhold := holding_of_accepting haccept
  have hin : ∀ {object taskId'}, InHandshake { s with
      tasks := s.tasks.set taskId task
      attempts := s.attempts.set taskId { attempt with stage := stage } } object taskId' →
      InHandshake s object taskId' := by
    rintro object taskId' ⟨attempt', hget', hhold', hobject⟩
    dsimp only at hget'
    rw [get?_set] at hget'
    split_ifs at hget' with hid
    · cases hget'
      exact hid ▸ ⟨attempt, hget, hhold, hobject⟩
    · exact ⟨attempt', hget', hhold', hobject⟩
  have hwaits : ∀ {taskId'}, Accepting { s with
      tasks := s.tasks.set taskId task
      attempts := s.attempts.set taskId { attempt with stage := stage } } taskId' →
      Accepting s taskId' ∧ taskId' ≠ taskId := by
    rintro taskId' ⟨attempt', hget', haccept'⟩
    dsimp only at hget'
    rw [get?_set] at hget'
    split_ifs at hget' with hid
    · cases hget'
      rw [hstage] at haccept'
      cases haccept'
    · exact ⟨⟨attempt', hget', haccept'⟩, hid⟩
  have htracked : ∀ {taskId'}, Tracked { s with
      tasks := s.tasks.set taskId task
      attempts := s.attempts.set taskId { attempt with stage := stage } } taskId' →
      taskId' = taskId ∨ Tracked s taskId' := by
    rintro taskId' ⟨task', hget'⟩
    dsimp only at hget'
    rw [get?_set] at hget'
    split_ifs at hget' with hid
    · exact .inl hid
    · exact .inr ⟨task', hget'⟩
  constructor
  case requests => exact h.requests
  case offers => exact h.offers
  case objects => exact h.objects
  case pending_lt => exact h.pending_lt
  case attempt_lt => exact fun object taskId' hshake => h.attempt_lt object taskId' (hin hshake)
  case idle =>
    exact fun request hmem hidle taskId' hshake => h.idle request hmem hidle taskId' (hin hshake)
  case handshakes => exact fun object p q hp hq => h.handshakes (hin hp) (hin hq)
  case tasks =>
    refine h.tasks.narrow ?_
    rintro taskId' (htracks | hwait | hdrawn)
    · obtain rfl | htracks := htracked htracks
      · exact .inr (.inl ⟨attempt, hget, haccept⟩)
      · exact .inl htracks
    · exact .inr (.inl (hwaits hwait).1)
    · exact .inr (.inr hdrawn)
  case keyed =>
    subst htask
    exact h.keyed.set task
  case tracked =>
    intro taskId' htracks hwait
    obtain ⟨hwait, hne⟩ := hwaits hwait
    obtain hself | htracks := htracked htracks
    · exact hne hself
    · exact h.tracked taskId' htracks hwait
  case drawn =>
    intro n hn
    obtain ⟨htask', hnone⟩ := h.drawn n hn
    have hne : nanoid n ≠ taskId := by
      rintro rfl
      rw [hnone] at hget
      cases hget
    refine ⟨fun htracks => ?_, ?_⟩
    · obtain hself | htracks := htracked htracks
      · exact hne hself
      · exact htask' htracks
    · exact (get?_set_of_ne hne).trans hnone

/-- **The last message about a task**, which is tracked no longer. -/
theorem Orderly.settle (h : Orderly nanoid s) (taskId : String) {message : Task → BrokerMessage}
    (hmessage : ∀ task, resolvedRequest (message task) = none ∧
      acceptedOffer (message task) = none ∧
      (task.id = taskId → finalTask (message task) = some taskId)) :
    Orderly nanoid (s.settleTask taskId message) := by
  unfold settleTask
  cases hget : s.tasks.get? taskId with
  | none => exact h
  | some task =>
    obtain ⟨hrequest, hoffer, hfinal⟩ := hmessage task
    obtain ⟨messages, heq, hm⟩ := messageRequester_eq task.requesterId (message task)
      (s.untrackTask taskId)
    dsimp only
    rw [heq]
    have htracked : ∀ {taskId'}, Tracked (s.untrackTask taskId) taskId' →
        Tracked s taskId' ∧ taskId' ≠ taskId := by
      rintro taskId' ⟨task', hget'⟩
      unfold untrackTask at hget'
      dsimp only at hget'
      rw [get?_delete] at hget'
      split_ifs at hget' with hid
      exact ⟨⟨task', hget'⟩, hid⟩
    constructor
    case requests =>
      rw [filterMap_sent_of_none hm hrequest]
      exact h.requests
    case offers =>
      rw [filterMap_sent_of_none hm hoffer]
      exact h.offers
    case objects => exact h.objects
    case pending_lt => exact h.pending_lt
    case attempt_lt => exact h.attempt_lt
    case idle => exact h.idle
    case handshakes => exact h.handshakes
    case tasks =>
      have hnarrow : ∀ taskId', IsOpen nanoid (s.untrackTask taskId) taskId' →
          IsOpen nanoid s taskId' ∧ taskId' ≠ taskId := by
        rintro taskId' (htracks | hwait | ⟨n, hn, rfl⟩)
        · exact ⟨.inl (htracked htracks).1, (htracked htracks).2⟩
        · refine ⟨.inr (.inl hwait), ?_⟩
          rintro rfl
          exact h.tracked _ ⟨task, hget⟩ hwait
        · refine ⟨.inr (.inr ⟨n, hn, rfl⟩), ?_⟩
          rintro rfl
          exact (h.drawn n hn).1 ⟨task, hget⟩
      obtain hsame | ⟨id, hid, hmore⟩ := @filterMap_sent (s.untrackTask taskId) finalTask _ _ hm
      · rw [hsame]
        exact h.tasks.narrow fun taskId' hopen => (hnarrow taskId' hopen).1
      · rw [hmore]
        rw [hfinal (h.keyed taskId task hget)] at hid
        cases hid
        exact h.tasks.close (.inl ⟨task, hget⟩) hnarrow
    case keyed => exact h.keyed.delete taskId
    case tracked => exact fun taskId' htracks => h.tracked taskId' (htracked htracks).1
    case drawn =>
      intro n hn
      obtain ⟨htask', hnone⟩ := h.drawn n hn
      exact ⟨fun htracks => htask' (htracked htracks).1, hnone⟩

end Invariant

end N8n.TaskRunners
