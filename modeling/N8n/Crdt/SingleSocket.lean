import N8n.Crdt.CurrentAttempt

/-!
# One socket at a time

Along runs in which no call of `connect` is disturbed by an earlier attempt, a transport has one
socket at a time, and none after it was disconnected.

## Main definitions

* `attemptOf`: the attempt that an event is of
* `Unaffected`: the current attempt, and the fields of the transport, are as before
* `ended`: the last call was one of `disconnect`

## Main results

* `Sound.unaffected`: events of other attempts do not affect the current one
* `transport_run`: what a transport is along a run without a slip
* `not_single`: the timer, the promise and the socket of an earlier attempt
-/

namespace N8n.Crdt

open WebSocketTransport

namespace WebSocketTransport

variable {δ : Type} {config : WebSocketTransportConfig} {t u : WebSocketTransport δ}

/-! ## Earlier attempts -/

/-- The attempt whose timer or socket an event is of. -/
def attemptOf : Event δ → Option ℕ
  | .opens k | .errs k | .closes k | .message k _ | .timeout k => some k
  | .connect _ | .disconnect | .send _ | .reconnect _ => none

/-- The transport is as before, apart from attempts other than `k`. -/
structure Unaffected (k : ℕ) (t u : WebSocketTransport δ) : Prop where
  attempt : u.attempts[k]? = t.attempts[k]?
  ws : u.ws = t.ws
  connected : u.connected = t.connected
  isConnecting : u.isConnecting = t.isConnecting
  reconnectTimeout : u.reconnectTimeout = t.reconnectTimeout
  notifications : u.notifications = t.notifications

section Current

variable {k j : ℕ} {e : Event δ}

@[simp] theorem ws_resolve : (t.resolve k).ws = t.ws := by
  unfold resolve
  split_ifs <;> rfl

@[simp] theorem ws_reject {error : String} : (t.reject k error).ws = t.ws := by
  unfold reject
  split_ifs <;> rfl

@[simp] theorem ws_onError : (t.onError k).ws = t.ws := by
  unfold onError
  dsimp only
  split_ifs
  · exact ws_reject
  · rfl

@[simp] theorem ws_onClose : (t.onClose config k).ws = t.ws := by
  unfold onClose scheduleReconnect
  dsimp only
  split_ifs <;> rfl

@[simp] theorem ws_onTimeout : (t.onTimeout k).ws = t.ws := by
  unfold onTimeout
  dsimp only
  rw [ws_reject]
  split <;> rfl

@[simp] theorem ws_send {data : δ} : (t.send data).ws = t.ws := by
  unfold send
  split
  · split_ifs <;> rfl
  · rfl

/-- An event of a socket happens while the socket has not closed, and leaves the socket that is kept
in its place. -/
theorem socketEvent_of_next (hs : t.next config e = some u) (he : attemptOf e = some k)
    (htimeout : e ≠ .timeout k) : ∃ possible after handler,
      t.socketEvent k possible after handler = some u ∧
      (∀ state, possible state = true → state ≠ .closed) ∧
      ∀ v : WebSocketTransport δ, (handler v).ws = v.ws := by
  cases e with
  | connect thrown => cases he
  | disconnect => cases he
  | send data => cases he
  | reconnect thrown => cases he
  | opens i =>
    cases he
    rw [WebSocketTransport.next] at hs
    refine ⟨_, _, _, hs, fun state hstate => ?_, fun v => ?_⟩
    · rintro rfl
      cases hstate
    · exact ws_resolve
  | errs i =>
    cases he
    rw [WebSocketTransport.next] at hs
    exact ⟨_, _, _, hs, fun state hstate => of_decide_eq_true hstate, fun v => ws_onError⟩
  | closes i =>
    cases he
    rw [WebSocketTransport.next] at hs
    exact ⟨_, _, _, hs, fun state hstate => of_decide_eq_true hstate, fun v => ws_onClose⟩
  | message i data =>
    cases he
    rw [WebSocketTransport.next] at hs
    refine ⟨_, _, _, hs, fun state hstate => ?_, fun v => rfl⟩
    rintro rfl
    cases hstate
  | timeout i =>
    cases he
    exact absurd rfl htimeout

theorem timeout_of_next (hs : t.next config (.timeout k) = some u) :
    u = t.onTimeout k ∧ ∃ a, t.attempts[k]? = some a ∧ a.timer = true := by
  simp only [WebSocketTransport.next] at hs
  split_ifs at hs with hany
  exact ⟨(Option.some.inj hs).symm, (Option.any_eq_true _ _).mp hany⟩

/-- An event of another attempt does not affect the current one. -/
theorem Sound.unaffected (h : Sound t) (hs : t.next config e = some u) (he : attemptOf e = some j)
    (hws : t.ws = some k) (hne : j ≠ k) : Unaffected k t u := by
  by_cases htimeout : e = .timeout j
  · -- an armed timer is that of the current attempt
    subst htimeout
    obtain ⟨-, a, ha, htimer⟩ := timeout_of_next hs
    exact absurd ((h.timer ha htimer).2 k hws).symm hne
  · obtain ⟨possible, after, handler, hs, hpossible, -⟩ := socketEvent_of_next hs he htimeout
    obtain ⟨a, ws, ha, hsocket, hstate, ⟨hattached, -⟩ | ⟨-, rfl⟩⟩ := socketEvent_cases hs
    · -- a socket that has not closed, and has its handlers, is the current one
      have hcurrent := h.live ha (isLive_of_attached hsocket hattached (hpossible _ hstate))
      exact absurd (Option.some.inj (hcurrent.symm.trans hws)) hne
    · refine ⟨?_, rfl, rfl, rfl, rfl, rfl⟩
      rw [getElem?_update, if_neg (Ne.symm hne)]

/-! ## After a call of `disconnect` -/

/-- The last call was one of `disconnect`. -/
def ended (es : List (Event δ)) : Bool :=
  es.foldl (fun ended e => match e with
    | .connect _ => false
    | .disconnect => true
    | .send _ | .opens _ | .errs _ | .closes _ | .message _ _ | .timeout _ | .reconnect _ => ended)
    false

/-- Only a call of `connect` brings a socket back. -/
theorem Sound.ended_snoc (h : Sound t) {es : List (Event δ)}
    (hended : ended es = true → t.ws = none) (hs : t.next config e = some u)
    (hafter : ended (es ++ [e]) = true) : u.ws = none := by
  rw [ended, List.foldl_append] at hafter
  cases he : attemptOf e with
  | some j =>
    have hbefore : t.ws = none := by
      refine hended ?_
      cases e <;> first | exact hafter | cases he
    by_cases htimeout : e = .timeout j
    · subst htimeout
      obtain ⟨rfl, -⟩ := timeout_of_next hs
      rw [ws_onTimeout]
      exact hbefore
    · obtain ⟨possible, after, handler, hs, -, hws⟩ := socketEvent_of_next hs he htimeout
      obtain ⟨a, ws, -, -, -, ⟨-, rfl⟩ | ⟨-, rfl⟩⟩ := socketEvent_cases hs
      · rw [hws]
        exact hbefore
      · exact hbefore
  | none =>
    cases e with
    | connect thrown => cases hafter
    | disconnect =>
      cases hs
      exact h.disconnect.2
    | send data =>
      cases hs
      rw [ws_send]
      exact hended hafter
    | reconnect thrown =>
      simp only [WebSocketTransport.next] at hs
      split_ifs at hs with hsome
      exact absurd (hended hafter) (h.reconnect (Option.isSome_iff_ne_none.mp hsome)).2.2
    | opens _ | errs _ | closes _ | message _ _ | timeout _ => cases he

end Current

/-! ## Runs -/

section Runs

variable {es : List (Event δ)}

/-- Runs without a slip. -/
abbrev Steady (δ : Type) (config : WebSocketTransportConfig) :
    Transition.System (WebSocketTransport δ) (Event δ) :=
  (transport δ config).restrict fun t e _ => ¬ Slip t e

theorem sound_run (h : (Steady δ config).Run .initial es t) :
    Sound t ∧ (ended es = true → t.ws = none) := by
  refine h.history_invariant (I := fun es t => Sound t ∧ (ended es = true → t.ws = none))
    ⟨.initial, nofun⟩ ?_
  rintro es t e u ⟨hsound, hended⟩ ⟨hs, hslip⟩
  exact ⟨hsound.next hs hslip, hsound.ended_snoc hended hs⟩

/-- **A transport along a run without a slip.** At most one socket is live, the transport is
connected exactly when it is open, and no event of another attempt affects it. Calls of `connect`
are resolved only while the transport is connected, and changes of the connection alternate. After a
call of `disconnect` no socket is live, and no reconnection is due, until `connect` is called. -/
theorem transport_run (h : (Steady δ config).Run .initial es t) :
    (∀ (i j : ℕ) (a b : Attempt), t.attempts[i]? = some a → t.attempts[j]? = some b →
      a.isLive = true → b.isLive = true → i = j) ∧
    (t.connected = true ↔ ∃ k a, t.ws = some k ∧ t.attempts[k]? = some a ∧ a.isOpen = true) ∧
    (∀ e u j k, t.next config e = some u → attemptOf e = some j → t.ws = some k → j ≠ k →
      Unaffected k t u) ∧
    (∀ resolution ∈ t.resolutions, resolution = true) ∧
    (t.notifications.IsChain (· ≠ ·) ∧ t.notifications.head? ≠ some false) ∧
    (ended es = true → (∀ a ∈ t.attempts, a.isLive = false) ∧ t.reconnectTimeout = none) := by
  obtain ⟨hsound, hended⟩ := sound_run h
  refine ⟨fun i j a b ha hb hi hj => ?_, hsound.connected, fun e u j k hs he hws hne => ?_,
    hsound.resolutions, ⟨hsound.alternate, hsound.first⟩, fun he => ⟨fun a ha => ?_, ?_⟩⟩
  · exact Option.some.inj ((hsound.live ha hi).symm.trans (hsound.live hb hj))
  · exact hsound.unaffected hs he hws hne
  · refine Bool.eq_false_iff.mpr fun hlive => ?_
    obtain ⟨k, ha⟩ := List.mem_iff_getElem?.mp ha
    exact absurd ((hended he).symm.trans (hsound.live ha hlive)) nofun
  · by_contra hne
    exact (hsound.reconnect hne).2.2 (hended he)

def defaults : WebSocketTransportConfig := ⟨true, none, 1000, 30000, 2⟩

/-- A transport that connects again after its socket has closed, and is then disconnected. -/
theorem transport_run_reconnected : ∃ t : WebSocketTransport Unit,
    t.notifications = [true, false, true, false] ∧ t.resolutions = [true] ∧
    (∀ a ∈ t.attempts, a.isLive = false) ∧ t.reconnectTimeout = none := by
  obtain ⟨t, hrun, hnotifications, hresolutions⟩ : ∃ t, (Steady Unit defaults).Run .initial
      [.connect none, .opens 0, .closes 0, .reconnect none, .opens 1, .disconnect] t ∧
      t.notifications = [true, false, true, false] ∧ t.resolutions = [true] := by
    refine ⟨_, .restrict_cons rfl ?_ <| .restrict_cons rfl id <| .restrict_cons rfl id <|
      .restrict_cons rfl id <| .restrict_cons rfl id <| .restrict_cons rfl id .nil, rfl, rfl⟩
    -- nothing is under way at the beginning
    rintro ⟨-, hnot⟩
    exact hnot nofun
  obtain ⟨-, -, -, -, -, hended⟩ := transport_run hrun
  exact ⟨t, hnotifications, hresolutions, hended rfl⟩

/-- **The timer, the promise and the socket of an earlier attempt.** The timer of an attempt that
was cut short closes the socket of the next one. A call that waits for the promise of the first
attempt, while another one is under way, is resolved at once. And a socket that has failed, but not
closed yet, starts an attempt beside the one that a call has started. -/
theorem not_single :
    (∃ t u : WebSocketTransport Unit, (transport Unit defaults).Run .initial
        [.connect none, .disconnect, .connect none, .opens 1] t ∧
      t.next defaults (.timeout 0) = some u ∧
      t.ws = some 1 ∧ t.attempts[1]?.bind Attempt.socket = some ⟨.open, true⟩ ∧
      u.attempts[1]?.bind Attempt.socket = some ⟨.closing, true⟩) ∧
    (∃ t : WebSocketTransport Unit, (transport Unit defaults).Run .initial
        [.connect none, .opens 0, .closes 0, .reconnect none, .connect none] t ∧
      t.resolutions = [true, false]) ∧
    ∃ t : WebSocketTransport Unit, (transport Unit defaults).Run .initial
        [.connect none, .errs 0, .connect none, .closes 0, .reconnect none] t ∧
      t.attempts[1]?.bind Attempt.socket = some ⟨.connecting, true⟩ ∧
      t.attempts[2]?.bind Attempt.socket = some ⟨.connecting, true⟩ :=
  ⟨⟨_, _, Transition.System.run_of_follow id rfl, rfl, rfl, rfl, rfl⟩,
    ⟨_, Transition.System.run_of_follow id rfl, rfl⟩,
    ⟨_, Transition.System.run_of_follow id rfl, rfl, rfl⟩⟩

end Runs

end WebSocketTransport

end N8n.Crdt
