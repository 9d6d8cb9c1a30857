import N8n.Crdt.BaseSyncProvider
import N8n.Crdt.SingleSocket

/-!
# Convergence

What a document holds while its provider is started has reached the peer or is on the way there. It
is on the way from the start of the provider, which sends all of it, and every update after that is
sent as it is made, as long as the transport is connected. Nothing sends later what was made while
it was not: a transport that connects again does so without the provider.

## Main definitions

* `Peers.InFlight`: an update is in a message that was not delivered yet
* `Peers.Agrees`: the documents are the same when both sides are connected and nothing is in flight
* `Peers.Slip`: an update that nobody sends, or a message that nobody reads
* `Sound`: what a started provider holds is at the peer, or in flight
* `Advance`: what a step of one side may do

## Main results

* `Sound.advance`: such a step keeps the invariant
* `documents_converge`: the documents agree along runs without a slip
* `not_converging`: an update made between two connections stays on its side
-/

namespace N8n.Crdt

open WebSocketTransport

/-! ## What a transport has sent -/

namespace WebSocketTransport

variable {δ : Type} {config : WebSocketTransportConfig} {t u : WebSocketTransport δ} {k : ℕ}
  {thrown : Option String}

@[simp] theorem sent_resolve : (t.resolve k).sent = t.sent := by
  unfold resolve
  split_ifs <;> rfl

@[simp] theorem sent_reject {error : String} : (t.reject k error).sent = t.sent := by
  unfold reject
  dsimp only
  split_ifs <;> rfl

@[simp] theorem sent_await : (t.await k).sent = t.sent := by
  unfold await
  split <;> rfl

@[simp] theorem sent_doConnect {reported : Bool} : (t.doConnect reported thrown).sent = t.sent := by
  cases thrown with
  | none => rfl
  | some error => cases reported <;> rfl

@[simp] theorem sent_connect : (t.connect config thrown).sent = t.sent := by
  unfold connect
  dsimp only
  split
  · rfl
  · split
    · exact sent_await
    · rw [sent_await]
      exact sent_doConnect

@[simp] theorem sent_detach : t.detach.sent = t.sent := by
  unfold detach
  split <;> rfl

@[simp] theorem sent_disconnect : t.disconnect.sent = t.sent := by
  unfold disconnect
  dsimp only
  split_ifs
  · exact sent_detach
  · exact sent_detach

@[simp] theorem sent_onOpen : (t.onOpen k).sent = t.sent := by
  unfold onOpen
  exact sent_resolve

@[simp] theorem sent_scheduleReconnect : (t.scheduleReconnect config).sent = t.sent := by
  unfold scheduleReconnect
  split_ifs <;> rfl

@[simp] theorem sent_onClose : (t.onClose config k).sent = t.sent := by
  unfold onClose
  dsimp only
  rw [sent_scheduleReconnect]
  split_ifs <;> rfl

@[simp] theorem sent_onError : (t.onError k).sent = t.sent := by
  unfold onError
  dsimp only
  split_ifs
  · exact sent_reject
  · rfl

@[simp] theorem sent_onTimeout : (t.onTimeout k).sent = t.sent := by
  unfold onTimeout
  dsimp only
  rw [sent_reject]
  split <;> rfl

theorem sent_socketEvent {possible : ReadyState → Bool} {after : ReadyState → ReadyState}
    {handler : WebSocketTransport δ → WebSocketTransport δ}
    (h : t.socketEvent k possible after handler = some u)
    (hhandler : ∀ t, (handler t).sent = t.sent) : u.sent = t.sent := by
  obtain ⟨a, ws, -, -, -, ⟨-, rfl⟩ | ⟨-, rfl⟩⟩ := socketEvent_cases h
  · exact hhandler _
  · rfl

/-- Only calls of `send` send anything. -/
theorem sent_of_next {e : Event δ} (hs : t.next config e = some u) (he : ∀ data, e ≠ .send data) :
    u.sent = t.sent := by
  cases e with
  | connect thrown =>
    cases hs
    exact sent_connect
  | disconnect =>
    cases hs
    exact sent_disconnect
  | send data => exact absurd rfl (he data)
  | opens k =>
    rw [next] at hs
    exact sent_socketEvent hs fun _ => sent_onOpen
  | errs k =>
    rw [next] at hs
    exact sent_socketEvent hs fun _ => sent_onError
  | closes k =>
    rw [next] at hs
    exact sent_socketEvent hs fun _ => sent_onClose
  | message k data =>
    rw [next] at hs
    exact sent_socketEvent hs fun _ => rfl
  | timeout k =>
    rw [(timeout_of_next hs).1]
    exact sent_onTimeout
  | reconnect thrown =>
    rw [next] at hs
    split_ifs at hs
    cases hs
    exact sent_doConnect

theorem sent_send (data : δ) (h : t.canSend = true) :
    ∃ k, (t.send data).sent = t.sent ++ [(k, data)] := by
  obtain ⟨hconnected, hws⟩ := Bool.and_eq_true_iff.mp h
  obtain ⟨k, hws⟩ := Option.isSome_iff_exists.mp hws
  exact ⟨k, by simp [send, hws, hconnected]⟩

theorem send_eq_self {data : δ} (h : t.canSend = false) : t.send data = t := by
  unfold send
  cases hws : t.ws with
  | none => rfl
  | some k =>
    have hconnected : t.connected = false := by simpa [canSend, hws] using h
    simp [hconnected]

end WebSocketTransport

/-! ## What a provider passes on -/

namespace BaseSyncProvider

variable {υ : Type} {config : WebSocketTransportConfig} {p q : BaseSyncProvider υ}
  {update : Finset υ}

/-- A step in which a provider may add to its document, and sends messages on the way. -/
structure Grows (p q : BaseSyncProvider υ) (messages : List (ℕ × Finset υ)) : Prop where
  doc : p.doc ⊆ q.doc
  sent : q.transport.sent = p.transport.sent ++ messages
  within : ∀ m ∈ messages, m.2 ⊆ q.doc
  subscribed : (p.syncing = true → 0 < p.docHandlers) → q.syncing = true → 0 < q.docHandlers

/-- The handlers on the document send an update, all of them or none. -/
theorem sent_emit (p : BaseSyncProvider υ) (update : Finset υ) :
    ∃ messages : List (ℕ × Finset υ),
      (p.emit update).transport.sent = p.transport.sent ++ messages ∧
      (∀ m ∈ messages, m.2 = update) ∧
      (p.transport.canSend = true → 0 < p.docHandlers → messages ≠ []) := by
  show ∃ messages : List (ℕ × Finset υ),
      ((fun t : WebSocketTransport (Finset υ) =>
        if t.connected then t.send update else t)^[p.docHandlers] p.transport).sent = _ ∧ _
  generalize p.transport = t
  induction p.docHandlers generalizing t with
  | zero => exact ⟨[], (List.append_nil _).symm, nofun, fun _ h => absurd h (lt_irrefl 0)⟩
  | succ n ih =>
    rw [Function.iterate_succ_apply]
    obtain ⟨messages, hsent, hmessages, -⟩ :=
      ih (if t.connected then t.send update else t)
    cases hcan : t.canSend with
    | true =>
      obtain ⟨hconnected, -⟩ := Bool.and_eq_true_iff.mp hcan
      obtain ⟨k, hk⟩ := sent_send update hcan
      rw [if_pos hconnected] at hsent ⊢
      refine ⟨(k, update) :: messages, ?_, ?_, fun _ _ => List.cons_ne_nil _ _⟩
      · rw [hsent, hk, List.append_assoc, List.singleton_append]
      · rintro m (- | ⟨-, hm⟩)
        · rfl
        · exact hmessages m hm
    | false =>
      have hsame : (if t.connected then t.send update else t) = t := by
        rw [send_eq_self hcan, ite_self]
      rw [hsame] at hsent ⊢
      exact ⟨messages, hsent, hmessages, nofun⟩

variable [DecidableEq υ]

theorem applyUpdate_of_subset (h : update ⊆ p.doc) : p.applyUpdate update = p := if_pos h

theorem doc_applyUpdate (p : BaseSyncProvider υ) (update : Finset υ) :
    (p.applyUpdate update).doc = p.doc ∪ update := by
  unfold applyUpdate
  split_ifs with h
  · exact (Finset.union_eq_left.mpr h).symm
  · rfl

theorem syncing_applyUpdate (p : BaseSyncProvider υ) (update : Finset υ) :
    (p.applyUpdate update).syncing = p.syncing ∧
      (p.applyUpdate update).docHandlers = p.docHandlers := by
  unfold applyUpdate
  split_ifs <;> exact ⟨rfl, rfl⟩

/-- What is new in an update is sent, when it can be. -/
theorem grows_applyUpdate (p : BaseSyncProvider υ) (update : Finset υ) :
    ∃ messages, Grows p (p.applyUpdate update) messages ∧
      (p.transport.canSend = true → 0 < p.docHandlers → ∀ u ∈ update, u ∉ p.doc →
        ∃ m ∈ messages, u ∈ m.2) := by
  have hdoc := doc_applyUpdate p update
  obtain ⟨hsyncing, hhandlers⟩ := syncing_applyUpdate p update
  have hsubscribed : (p.syncing = true → 0 < p.docHandlers) →
      (p.applyUpdate update).syncing = true → 0 < (p.applyUpdate update).docHandlers := by
    rw [hsyncing, hhandlers]
    exact id
  by_cases hnew : update ⊆ p.doc
  · refine ⟨[], ⟨?_, ?_, nofun, hsubscribed⟩, fun _ _ u hu hnot => absurd (hnew hu) hnot⟩
    · rw [applyUpdate_of_subset hnew]
    · rw [applyUpdate_of_subset hnew, List.append_nil]
  · obtain ⟨messages, hsent, hmessages, hne⟩ :=
      sent_emit { p with doc := p.doc ∪ update } (update \ p.doc)
    refine ⟨messages, ⟨?_, ?_, fun m hm => ?_, hsubscribed⟩, fun hcan hpos u hu hnot => ?_⟩
    · rw [hdoc]
      exact Finset.subset_union_left
    · rw [applyUpdate, if_neg hnew, hsent]
    · rw [hdoc, hmessages m hm]
      exact Finset.sdiff_subset.trans Finset.subset_union_right
    · obtain ⟨m, hm⟩ := List.exists_mem_of_ne_nil messages (hne hcan hpos)
      refine ⟨m, hm, ?_⟩
      rw [hmessages m hm]
      exact Finset.mem_sdiff.mpr ⟨hu, hnot⟩

theorem receive_of_subset (h : update ⊆ p.doc) : p.receive update = p := by
  have hthrows : p.throws update = false := by simp [throws, h]
  rw [receive, hthrows, applyUpdate_of_subset h]
  rfl

/-- To apply an update more than once is to apply it once. -/
theorem iterate_receive (p : BaseSyncProvider υ) {n : ℕ} (hn : 0 < n) :
    (fun p => p.receive update)^[n] p = p.receive update := by
  obtain ⟨n, rfl⟩ := Nat.exists_eq_succ_of_ne_zero hn.ne'
  rw [Function.iterate_succ_apply]
  refine Function.iterate_fixed (receive_of_subset ?_) n
  unfold receive
  split_ifs
  · exact (doc_applyUpdate p update) ▸ Finset.subset_union_right
  · exact (doc_applyUpdate p update) ▸ Finset.subset_union_right

theorem receive_eq (p : BaseSyncProvider υ) (update : Finset υ) :
    ∃ errors, p.receive update = { p.applyUpdate update with errors := errors } := by
  unfold receive
  split_ifs
  · exact ⟨_, rfl⟩
  · exact ⟨_, rfl⟩

end BaseSyncProvider

/-! ## The invariant -/

namespace Side

variable (side a : Side)

@[simp] theorem peer_peer : side.peer.peer = side := by cases side <;> rfl

theorem peer_ne : side.peer ≠ side := by cases side <;> nofun

theorem eq_or_eq_peer : a = side ∨ a = side.peer := by
  cases side <;> cases a <;> simp [peer]

end Side

namespace Peers

variable {υ : Type}

/-- An update is in a message of a side that was not delivered yet. -/
def InFlight (s : Peers υ) (side : Side) (u : υ) : Prop :=
  ∃ (i : ℕ) (m : ℕ × Finset υ), (s.sent side)[i]? = some m ∧ i ∉ (s side.peer).delivered ∧ u ∈ m.2

/-- Both sides are started and connected, and all that they have sent was delivered. -/
structure IsQuiet (s : Peers υ) : Prop where
  syncing : ∀ side, (s side).provider.syncing = true
  connected : ∀ side, (s side).provider.transport.connected = true
  delivered : ∀ (side : Side) (i : ℕ), i < (s.sent side).length → i ∈ (s side.peer).delivered

/-- The documents of two sides that are quiet hold the same updates. -/
def Agrees (s : Peers υ) : Prop := s.IsQuiet → s.doc .left = s.doc .right

/-- A provider that is started makes an update of its own while it cannot send, or a message with
something new is delivered to a transport that no provider reads from. -/
def Slip (s : Peers υ) : SyncEvent υ → Prop
  | .edit side update =>
    (s side).provider.syncing = true ∧ (s side).provider.transport.canSend = false ∧
      ¬ update ⊆ s.doc side
  | .deliver side message _ =>
    (s side).provider.receiveHandlers = 0 ∧
      ∃ m, (s.sent side.peer)[message]? = some m ∧ ¬ m.2 ⊆ s.doc side
  | .start _ _ | .resume _ _ | .stop _ | .transport _ _ => False

/-- What a started provider holds has reached its peer, or is in flight. -/
structure Sound (s : Peers υ) : Prop where
  subscribed : ∀ side, (s side).provider.syncing = true → 0 < (s side).provider.docHandlers
  within : ∀ side, ∀ m ∈ s.sent side, m.2 ⊆ s.doc side
  delivered : ∀ side, ∀ i ∈ (s side).delivered, i < (s.sent side.peer).length
  carried : ∀ side, (s side).provider.syncing = true →
    ∀ u ∈ s.doc side, u ∈ s.doc side.peer ∨ s.InFlight side u

theorem Sound.create (docs : Side → Finset υ) : Sound (create docs) where
  subscribed := nofun
  within := nofun
  delivered _ i hi := absurd hi (Finset.notMem_empty i)
  carried := nofun

/-- Once both sides are quiet nothing is in flight. -/
theorem Sound.agrees {s : Peers υ} (h : s.Sound) : s.Agrees := by
  intro hquiet
  have hle : ∀ side, s.doc side ⊆ s.doc side.peer := by
    intro side u hu
    obtain hpeer | ⟨i, m, hm, hnot, -⟩ := h.carried side (hquiet.syncing side) u hu
    · exact hpeer
    · obtain ⟨hi, -⟩ := List.getElem?_eq_some_iff.mp hm
      exact absurd (hquiet.delivered side i hi) hnot
  exact (hle .left).antisymm (hle .right)

/-- What a step may do on one side: its provider sends on what is new, unless it comes from the
peer, and a message that is delivered ends in the document. -/
structure Advance (s : Peers υ) (side : Side) (q : Peer υ) (messages : List (ℕ × Finset υ)) :
    Prop where
  grows : BaseSyncProvider.Grows (s side).provider q.provider messages
  carried : q.provider.syncing = true → ∀ u ∈ q.provider.doc,
    ((s side).provider.syncing = true ∧ u ∈ s.doc side) ∨ u ∈ s.doc side.peer ∨
      ∃ m ∈ messages, u ∈ m.2
  delivered : ∀ i ∈ q.delivered, i ∈ (s side).delivered ∨
    ∃ m, (s.sent side.peer)[i]? = some m ∧ m.2 ⊆ q.provider.doc

section Steps

variable {s : Peers υ} {side : Side} {q : Peer υ} {messages : List (ℕ × Finset υ)}

theorem InFlight.update_self (hgrows : BaseSyncProvider.Grows (s side).provider q.provider messages)
    {u : υ} (h : s.InFlight side u) : InFlight (Function.update s side q) side u := by
  obtain ⟨i, m, hm, hnot, hu⟩ := h
  refine ⟨i, m, ?_, ?_, hu⟩
  · rw [sent, Function.update_self, hgrows.sent]
    exact (List.getElem?_append_left (List.getElem?_eq_some_iff.mp hm).1).trans hm
  · rwa [Function.update_of_ne side.peer_ne]

/-- **Steps keep the invariant.** -/
theorem Sound.advance (h : s.Sound) (messages : List (ℕ × Finset υ))
    (hstep : s.Advance side q messages) :
    Sound (Function.update s side q) := by
  have hpeer : Function.update s side q side.peer = s side.peer :=
    Function.update_of_ne side.peer_ne q s
  have hself : Function.update s side q side = q := Function.update_self side q s
  refine ⟨fun a => ?_, fun a => ?_, fun a => ?_, fun a => ?_⟩
  · obtain rfl | rfl := side.eq_or_eq_peer a
    · rw [hself]
      exact hstep.grows.subscribed (h.subscribed a)
    · rw [hpeer]
      exact h.subscribed _
  · obtain rfl | rfl := side.eq_or_eq_peer a
    · rw [sent, doc, hself, hstep.grows.sent]
      intro m hm
      obtain hm | hm := List.mem_append.mp hm
      · exact (h.within a m hm).trans hstep.grows.doc
      · exact hstep.grows.within m hm
    · rw [sent, doc, hpeer]
      exact h.within _
  · obtain rfl | rfl := side.eq_or_eq_peer a
    · rw [sent, hself, hpeer]
      intro i hi
      obtain hi | ⟨m, hm, -⟩ := hstep.delivered i hi
      · exact h.delivered a i hi
      · exact (List.getElem?_eq_some_iff.mp hm).1
    · rw [sent, Side.peer_peer, hself, hpeer, hstep.grows.sent, List.length_append]
      intro i hi
      have hlt := h.delivered _ i hi
      rw [Side.peer_peer] at hlt
      exact Nat.lt_add_right _ hlt
  · obtain rfl | rfl := side.eq_or_eq_peer a
    -- the side of the step: what it holds is older, or comes from the peer, or was just sent
    · rw [doc, doc, hself, hpeer]
      intro hsyncing u hu
      obtain ⟨hold, hmem⟩ | hmem | ⟨m, hm, hmem⟩ := hstep.carried hsyncing u hu
      · exact (h.carried a hold u hmem).imp_right (InFlight.update_self hstep.grows)
      · exact .inl hmem
      · obtain ⟨i, hi⟩ := List.mem_iff_getElem?.mp hm
        refine .inr ⟨(s.sent a).length + i, m, ?_, ?_, hmem⟩
        · rw [sent, hself, hstep.grows.sent, sent,
            List.getElem?_append_right (Nat.le_add_right _ _), Nat.add_sub_cancel_left]
          exact hi
        · rw [hpeer]
          intro hdelivered
          have hlt := h.delivered _ _ hdelivered
          rw [Side.peer_peer] at hlt
          exact absurd hlt (Nat.not_lt.mpr (Nat.le_add_right _ _))
    -- its peer: a message that is in flight no more is in the document of the side
    · rw [doc, doc, Side.peer_peer, hself, hpeer]
      intro hsyncing u hu
      obtain hmem | ⟨i, m, hm, hnot, hmem⟩ := h.carried _ hsyncing u hu
      · rw [Side.peer_peer] at hmem
        exact .inl (hstep.grows.doc hmem)
      · rw [Side.peer_peer] at hnot
        by_cases hi : i ∈ q.delivered
        · obtain hi | ⟨m', hm', hsub⟩ := hstep.delivered i hi
          · exact absurd hi hnot
          · obtain rfl := Option.some.inj (hm'.symm.trans hm)
            exact .inl (hsub hmem)
        · refine .inr ⟨i, m, ?_, ?_, hmem⟩
          · rw [sent, hpeer]
            exact hm
          · rwa [Side.peer_peer, hself]

/-- A step of a provider that leaves its document alone and sends nothing. -/
theorem Sound.kept (h : s.Sound) {q : BaseSyncProvider υ} (hdoc : q.doc = s.doc side)
    (hsent : q.transport.sent = s.sent side)
    (hsyncing : q.syncing = true → (s side).provider.syncing = true ∧
      (s side).provider.docHandlers ≤ q.docHandlers) : Sound (s.set side q) := by
  apply h.advance []
  refine ⟨⟨hdoc.ge, ?_, nofun, ?_⟩, fun hq u hu => ?_, fun i hi => .inl hi⟩
  · rw [List.append_nil]
    exact hsent
  · intro hpos hq
    obtain ⟨hp, hle⟩ := hsyncing hq
    exact (hpos hp).trans_le hle
  · exact .inl ⟨(hsyncing hq).1, hdoc ▸ hu⟩

variable {config : Side → WebSocketTransportConfig}

theorem Sound.start (h : s.Sound) {thrown : Option String} :
    Sound (s.set side ((s side).provider.start (config side) thrown)) := by
  unfold BaseSyncProvider.start
  split_ifs with hsyncing
  · exact h.kept rfl rfl fun hq => ⟨hq, le_rfl⟩
  · exact h.kept rfl sent_connect fun hq => ⟨hq, le_rfl⟩

theorem Sound.stop (h : s.Sound) : Sound (s.set side (s side).provider.stop) := by
  by_cases hsyncing : (s side).provider.syncing = true
  · rw [BaseSyncProvider.stop, if_pos hsyncing]
    exact h.kept rfl sent_disconnect nofun
  · rw [BaseSyncProvider.stop, if_neg hsyncing]
    exact h.kept rfl rfl fun hq => ⟨hq, le_rfl⟩

/-- The whole document is sent at the start. -/
theorem Sound.resume (h : s.Sound) {call : ℕ} {q : BaseSyncProvider υ}
    (hs : (s side).provider.resume call = some q) : Sound (s.set side q) := by
  obtain ⟨attempt, -, hs⟩ := Option.bind_eq_some_iff.mp hs
  dsimp only at hs
  split at hs
  · cases hs
  · cases hs
    unfold BaseSyncProvider.connected
    dsimp only
    split_ifs with hcan
    · obtain ⟨k, hk⟩ := sent_send (s.doc side) hcan
      apply h.advance [(k, s.doc side)]
      refine ⟨⟨subset_rfl, hk, ?_, fun _ _ => Nat.succ_pos _⟩, fun _ u hu => ?_,
        fun i hi => .inl hi⟩
      · rintro m (- | ⟨-, ⟨⟩⟩)
        exact subset_rfl
      · exact .inr <| .inr ⟨_, List.mem_singleton_self _, hu⟩
    · exact h.kept rfl rfl fun hq => ⟨hq, Nat.le_succ _⟩
  · cases hs
    exact h.kept rfl rfl fun hq => ⟨hq, le_rfl⟩

variable [DecidableEq υ]

/-- An update that a started provider makes is sent. -/
theorem Sound.edit (h : s.Sound) {update : Finset υ} (hslip : ¬ s.Slip (.edit side update)) :
    Sound (s.set side ((s side).provider.applyUpdate update)) := by
  obtain ⟨messages, hgrows, hnew⟩ :=
    BaseSyncProvider.grows_applyUpdate (s side).provider update
  obtain ⟨hsyncing, -⟩ := BaseSyncProvider.syncing_applyUpdate (s side).provider update
  apply h.advance messages
  refine ⟨hgrows, fun hq u hu => ?_, fun i hi => .inl hi⟩
  have hq : (s side).provider.syncing = true := hsyncing.symm.trans hq
  by_cases hmem : u ∈ s.doc side
  · exact .inl ⟨hq, hmem⟩
  · replace hu : u ∈ ((s side).provider.applyUpdate update).doc := hu
    rw [BaseSyncProvider.doc_applyUpdate] at hu
    replace hu := (Finset.mem_union.mp hu).resolve_left hmem
    refine .inr <| .inr <| hnew ?_ (h.subscribed side hq) u hu hmem
    by_contra hcan
    exact hslip ⟨hq, Bool.eq_false_iff.mpr hcan, fun hsub => hmem (hsub hu)⟩

theorem Sound.deliver (h : s.Sound) {message attempt : ℕ} {t : Peers υ}
    (hs : s.deliver config side message attempt = some t)
    (hslip : ¬ s.Slip (.deliver side message attempt)) : Sound t := by
  unfold Peers.deliver at hs
  dsimp only at hs
  split at hs
  · cases hs
  · rename_i k data hmessage
    split_ifs at hs with hfresh
    obtain ⟨u, hu, rfl⟩ := Option.map_eq_some_iff.mp hs
    have hsent : u.sent = s.sent side := sent_of_next hu nofun
    have hdata : data ⊆ s.doc side.peer :=
      h.within side.peer (k, data) (List.mem_of_getElem? hmessage)
    obtain hreaders | hreaders := Nat.eq_zero_or_pos (s side).provider.receiveHandlers
    · rw [hreaders]
      have hold : data ⊆ s.doc side := by
        by_contra hnew
        exact hslip ⟨hreaders, _, hmessage, hnew⟩
      apply h.advance []
      refine ⟨⟨subset_rfl, ?_, nofun, id⟩, fun hq v hv => .inl ⟨hq, hv⟩, fun i hi => ?_⟩
      · exact hsent.trans (List.append_nil _).symm
      · obtain rfl | hi := Finset.mem_insert.mp hi
        · exact .inr ⟨_, hmessage, hold⟩
        · exact .inl hi
    · rw [BaseSyncProvider.iterate_receive _ hreaders]
      obtain ⟨errors, hreceive⟩ :=
        BaseSyncProvider.receive_eq { (s side).provider with transport := u } data
      obtain ⟨messages, hgrows, -⟩ :=
        BaseSyncProvider.grows_applyUpdate { (s side).provider with transport := u } data
      obtain ⟨hsyncing, -⟩ :=
        BaseSyncProvider.syncing_applyUpdate { (s side).provider with transport := u } data
      have hdoc :=
        BaseSyncProvider.doc_applyUpdate { (s side).provider with transport := u } data
      rw [hreceive]
      apply h.advance messages
      refine ⟨⟨hgrows.doc, ?_, hgrows.within, hgrows.subscribed⟩, fun hq v hv => ?_, fun i hi => ?_⟩
      · exact hgrows.sent.trans (congrArg (· ++ messages) hsent)
      · obtain hv | hv := Finset.mem_union.mp (hdoc ▸ hv)
        · exact .inl ⟨hsyncing.symm.trans hq, hv⟩
        · exact .inr (.inl (hdata hv))
      · obtain rfl | hi := Finset.mem_insert.mp hi
        · refine .inr ⟨_, hmessage, ?_⟩
          exact (Finset.subset_union_right).trans hdoc.ge
        · exact .inl hi

theorem Sound.next (h : s.Sound) {e : SyncEvent υ} {t : Peers υ} (hs : s.next config e = some t)
    (hslip : ¬ s.Slip e) : Sound t := by
  cases e with
  | start side thrown =>
    cases hs
    exact h.start
  | resume side call =>
    obtain ⟨q, hq, rfl⟩ := Option.map_eq_some_iff.mp hs
    exact h.resume hq
  | stop side =>
    cases hs
    exact h.stop
  | edit side update =>
    cases hs
    exact h.edit hslip
  | transport side event =>
    rw [Peers.next] at hs
    split_ifs at hs with hconnection
    obtain ⟨u, hu, rfl⟩ := Option.map_eq_some_iff.mp hs
    refine h.kept rfl (sent_of_next hu ?_) fun hq => ⟨hq, le_rfl⟩
    rintro data rfl
    cases hconnection
  | deliver side message attempt => exact h.deliver hs hslip

end Steps

/-! ## Runs -/

section Runs

variable [DecidableEq υ] {config : Side → WebSocketTransportConfig} {docs : Side → Finset υ}
  {es : List (SyncEvent υ)} {s : Peers υ}

/-- Runs without a slip. -/
abbrev Steady (υ : Type) [DecidableEq υ] (config : Side → WebSocketTransportConfig) :
    Transition.System (Peers υ) (SyncEvent υ) :=
  (synchronization υ config).restrict fun s e _ => ¬ s.Slip e

theorem sound_run (h : (Steady υ config).Run (.create docs) es s) : s.Sound := by
  refine h.history_invariant (I := fun _ s => s.Sound) (.create docs) ?_
  rintro es s e t hsound ⟨hs, hslip⟩
  exact hsound.next hs hslip

/-- **Convergence.** In every state of a run in which a started provider makes updates only while it
can send, and no message goes unread, the two documents hold the same updates once both sides are
started and connected and all that they have sent was delivered. -/
theorem documents_converge (h : (Steady υ config).Run (.create docs) es s) : s.Agrees :=
  (sound_run h).agrees

/-- The left document has an update before it is linked and makes one afterwards. -/
theorem documents_converge_linked : ∃ s : Peers ℕ,
    s.IsQuiet ∧ s.doc .left = {0, 1} ∧ s.doc .left = s.doc .right := by
  obtain ⟨s, hrun, hquiet, hdoc⟩ : ∃ s,
      (Steady ℕ fun _ => defaults).Run
        (.create fun side => if side = .left then {0} else ∅)
        [.start .left none, .transport .left (.opens 0), .resume .left 0, .start .right none,
          .transport .right (.opens 0), .resume .right 0, .edit .left {1}, .deliver .right 0 0,
          .deliver .right 1 0, .deliver .left 0 0, .deliver .left 1 0, .deliver .left 2 0] s ∧
      s.IsQuiet ∧ s.doc .left = {0, 1} := by
    refine ⟨_, .restrict_cons rfl id <| .restrict_cons rfl id <| .restrict_cons rfl id <|
      .restrict_cons rfl id <| .restrict_cons rfl id <| .restrict_cons rfl id <|
      .restrict_cons rfl (fun h => absurd h.2.1 (by decide)) <|
      .restrict_cons rfl (fun h => absurd h.1 (by decide)) <|
      .restrict_cons rfl (fun h => absurd h.1 (by decide)) <|
      .restrict_cons rfl (fun h => absurd h.1 (by decide)) <|
      .restrict_cons rfl (fun h => absurd h.1 (by decide)) <|
      .restrict_cons rfl (fun h => absurd h.1 (by decide)) .nil, ⟨?_, ?_, ?_⟩, rfl⟩
    · rintro (- | -) <;> rfl
    · rintro (- | -) <;> rfl
    · rintro (- | -) <;> decide
  exact ⟨s, hquiet, hdoc, documents_converge hrun hquiet⟩

/-- **What is made between two connections stays on its side**, and so does what reaches a transport
before its provider was started. -/
theorem not_converging :
    (∃ s : Peers ℕ, (synchronization ℕ fun _ => WebSocketTransport.defaults).Run
        (.create fun _ => ∅)
        [.start .left none, .transport .left (.opens 0), .resume .left 0, .start .right none,
          .transport .right (.opens 0), .resume .right 0, .deliver .right 0 0, .deliver .left 0 0,
          .transport .left (.closes 0), .edit .left {1}, .transport .left (.reconnect none),
          .transport .left (.opens 1)] s ∧
      s.IsQuiet ∧ s.doc .left = {1} ∧ s.doc .right = ∅) ∧
    ∃ s : Peers ℕ, (synchronization ℕ fun _ => WebSocketTransport.defaults).Run
        (.create fun side => if side = .left then {1} else ∅)
        [.transport .right (.connect none), .transport .right (.opens 0), .start .left none,
          .transport .left (.opens 0), .resume .left 0, .deliver .right 0 0, .start .right none,
          .resume .right 0, .deliver .left 0 0] s ∧
      s.IsQuiet ∧ s.doc .left = {1} ∧ s.doc .right = ∅ := by
  refine ⟨⟨_, Transition.System.run_of_follow id rfl, ⟨?_, ?_, ?_⟩, rfl, rfl⟩,
    ⟨_, Transition.System.run_of_follow id rfl, ⟨?_, ?_, ?_⟩, rfl, rfl⟩⟩
  · rintro (- | -) <;> rfl
  · rintro (- | -) <;> rfl
  · rintro (- | -) <;> decide
  · rintro (- | -) <;> rfl
  · rintro (- | -) <;> rfl
  · rintro (- | -) <;> decide

end Runs

end Peers

end N8n.Crdt
