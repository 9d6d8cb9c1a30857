import Mathlib.Data.List.Chain
import N8n.Crdt.WebSocketTransport

/-!
# The current attempt of a transport

Whatever can still act on a transport belongs to the attempt whose socket it keeps, as long as no
attempt is started while an earlier one is under way. A call of `connect` starts one although an
earlier attempt was cut short, so that its timer is still armed, or although its socket has failed
and not closed yet. And it may wait for the promise of an attempt that is over.

## Main definitions

* `Slip`: a call of `connect` that an earlier attempt disturbs
* `Sound`: what acts on a transport belongs to its current attempt

## Main results

* `Sound.connect`, `Sound.disconnect`: the calls
* `Sound.onOpen`, `Sound.onClose`, `Sound.onError`, `Sound.onTimeout`: the handlers
* `Sound.next`: the step lemma
-/

namespace N8n.Crdt

open WebSocketTransport

namespace WebSocketTransport

variable {δ : Type} {config : WebSocketTransportConfig} {t u : WebSocketTransport δ} {a : Attempt}
  {k : ℕ} {f : Attempt → Attempt}

/-! ## Attempts -/

/-- No timer of an attempt is armed, and no socket is still to close. -/
def IsQuiet (t : WebSocketTransport δ) : Prop :=
  ∀ a ∈ t.attempts, a.timer = false ∧ a.isLive = false

/-- A call of `connect` that starts an attempt while an earlier one is under way, or waits for
another attempt than the current one. -/
def Slip (t : WebSocketTransport δ) : Event δ → Prop
  | .connect _ =>
    t.connected = false ∧
      match t.joined with
      | some k => t.ws ≠ some k
      | none => ¬ t.IsQuiet
  | _ => False

/-- What acts on a transport belongs to its current attempt. -/
structure Sound (t : WebSocketTransport δ) : Prop where
  timer : ∀ {k : ℕ} {a : Attempt}, t.attempts[k]? = some a → a.timer = true →
    a.isOpen = false ∧ ∀ j, t.ws = some j → j = k
  live : ∀ {k : ℕ} {a : Attempt}, t.attempts[k]? = some a → a.isLive = true → t.ws = some k
  connected : t.connected = true ↔
    ∃ k a, t.ws = some k ∧ t.attempts[k]? = some a ∧ a.isOpen = true
  connecting : t.isConnecting = true → t.connected = false ∧
    ∃ k a, t.ws = some k ∧ t.attempts[k]? = some a ∧ a.promise ≠ .resolved
  reconnect : t.reconnectTimeout ≠ none → t.connected = false ∧ t.IsQuiet ∧ t.ws ≠ none
  alternate : t.notifications.IsChain (· ≠ ·)
  first : t.notifications.head? ≠ some false
  last : t.connected = true ↔ t.notifications.getLast? = some true
  resolutions : ∀ resolution ∈ t.resolutions, resolution = true

theorem Sound.initial : Sound (.initial : WebSocketTransport δ) where
  timer := nofun
  live := nofun
  connected := by simp [WebSocketTransport.initial]
  connecting := nofun
  reconnect h := absurd rfl h
  alternate := .nil
  first := nofun
  last := by simp [WebSocketTransport.initial]
  resolutions := nofun

theorem getElem?_update {k j : ℕ} :
    (t.update k f).attempts[j]? = if j = k then t.attempts[j]?.map f else t.attempts[j]? := by
  show (t.attempts.modify k f)[j]? = _
  rw [List.getElem?_modify]
  by_cases h : j = k
  · rw [if_pos h]
    cases t.attempts[j]? with
    | none => rfl
    | some a => simp [h]
  · rw [if_neg h]
    cases t.attempts[j]? with
    | none => rfl
    | some a => simp [Ne.symm h]

theorem isLive_of_isOpen (h : a.isOpen = true) : a.isLive = true := by
  obtain ⟨timer, socket, promise, reported⟩ := a
  cases socket with
  | none => cases h
  | some ws =>
    obtain ⟨hattached, hopen⟩ : ws.attached = true ∧ ws.readyState = .open := by
      simpa [Attempt.isOpen] using h
    simp [Attempt.isLive, hattached, hopen]

/-! ## Changes that keep the sockets -/

/-- The socket of an attempt is as live and as open as before, and its timer is not armed anew. -/
structure Kept (connecting : Bool) (a b : Attempt) : Prop where
  timer : b.timer = true → a.timer = true
  isLive : b.isLive = a.isLive
  isOpen : b.isOpen = a.isOpen
  promise : connecting = true → a.promise ≠ .resolved → b.promise ≠ .resolved

theorem Kept.refl (connecting : Bool) (a : Attempt) : Kept connecting a a :=
  ⟨id, rfl, rfl, fun _ => id⟩

/-- A change of an attempt that keeps its socket keeps what is sound. -/
theorem Sound.update (h : Sound t)
    (hf : ∀ a, t.attempts[k]? = some a → Kept t.isConnecting a (f a)) : Sound (t.update k f) := by
  have hback : ∀ {j : ℕ} {b : Attempt}, (t.update k f).attempts[j]? = some b →
      ∃ a, t.attempts[j]? = some a ∧ Kept t.isConnecting a b := by
    intro j b hb
    rw [getElem?_update] at hb
    split_ifs at hb with hj
    · obtain ⟨a, ha, rfl⟩ := Option.map_eq_some_iff.mp hb
      exact ⟨a, ha, hf a (hj ▸ ha)⟩
    · exact ⟨b, hb, .refl _ b⟩
  have hforth : ∀ {j : ℕ} {a : Attempt}, t.attempts[j]? = some a →
      ∃ b, (t.update k f).attempts[j]? = some b ∧ Kept t.isConnecting a b := by
    intro j a ha
    rw [getElem?_update]
    split_ifs with hj
    · exact ⟨f a, by rw [ha]; rfl, hf a (hj ▸ ha)⟩
    · exact ⟨a, ha, .refl _ a⟩
  refine ⟨fun hb htimer => ?_, fun hb hlive => ?_, h.connected.trans ⟨?_, ?_⟩, fun hc => ?_,
    fun hr => ?_, h.alternate, h.first, h.last, h.resolutions⟩
  · obtain ⟨a, ha, hkept⟩ := hback hb
    rw [hkept.isOpen]
    exact h.timer ha (hkept.timer htimer)
  · obtain ⟨a, ha, hkept⟩ := hback hb
    exact h.live ha (hkept.isLive ▸ hlive)
  · rintro ⟨j, a, hws, ha, hopen⟩
    obtain ⟨b, hb, hkept⟩ := hforth ha
    exact ⟨j, b, hws, hb, hkept.isOpen.trans hopen⟩
  · rintro ⟨j, b, hws, hb, hopen⟩
    obtain ⟨a, ha, hkept⟩ := hback hb
    exact ⟨j, a, hws, ha, hkept.isOpen.symm.trans hopen⟩
  · obtain ⟨hconnected, j, a, hws, ha, hpromise⟩ := h.connecting hc
    obtain ⟨b, hb, hkept⟩ := hforth ha
    exact ⟨hconnected, j, b, hws, hb, hkept.promise hc hpromise⟩
  · obtain ⟨hconnected, hquiet, hws⟩ := h.reconnect hr
    refine ⟨hconnected, fun b hb => ?_, hws⟩
    obtain ⟨j, hb⟩ := List.mem_iff_getElem?.mp hb
    obtain ⟨a, ha, hkept⟩ := hback hb
    obtain ⟨hoff, hlive⟩ := hquiet a (List.mem_of_getElem? ha)
    refine ⟨Bool.eq_false_iff.mpr fun htimer => ?_, hkept.isLive.trans hlive⟩
    exact absurd (hoff.symm.trans (hkept.timer htimer)) nofun

theorem Sound.clearTimer (h : Sound t) (k : ℕ) : Sound (t.clearTimer k) :=
  h.update fun _ _ => ⟨nofun, rfl, rfl, fun _ => id⟩

/-- An event of a socket whose handlers are off. -/
theorem Sound.detached (h : Sound t) {ws : WebSocket} (after : ReadyState → ReadyState)
    (hsocket : t.attempts[k]?.bind Attempt.socket = some ws) (hattached : ws.attached = false) :
    Sound (t.update k fun a => a.withSocket fun ws =>
      { ws with readyState := after ws.readyState }) := by
  refine h.update fun a ha => ⟨id, ?_, ?_, fun _ => id⟩
  all_goals
    rw [ha] at hsocket
    have hsocket : a.socket = some ws := hsocket
    simp [Attempt.isLive, Attempt.isOpen, Attempt.withSocket, hsocket, hattached]

theorem Sound.reject (h : Sound t) (k : ℕ) (error : String) : Sound (t.reject k error) := by
  have hupdate : Sound (t.update k fun a => { a with promise := .rejected error }) :=
    h.update fun _ _ => ⟨id, rfl, rfl, fun _ _ => nofun⟩
  unfold WebSocketTransport.reject
  split_ifs
  · exact ⟨hupdate.timer, hupdate.live, hupdate.connected, hupdate.connecting, hupdate.reconnect,
      h.alternate, h.first, h.last, h.resolutions⟩
  · exact ⟨hupdate.timer, hupdate.live, hupdate.connected, hupdate.connecting, hupdate.reconnect,
      h.alternate, h.first, h.last, h.resolutions⟩
  · exact h

/-- Calls are resolved while the transport is connected. -/
theorem Sound.resolve (h : Sound t) (k : ℕ) (hconnected : t.connected = true)
    (hconnecting : t.isConnecting = false) : Sound (t.resolve k) := by
  have hupdate : Sound (t.update k fun a => { a with promise := .resolved }) :=
    h.update fun _ _ => ⟨id, rfl, rfl, fun hc => absurd (hconnecting.symm.trans hc) nofun⟩
  unfold WebSocketTransport.resolve
  split_ifs
  · refine ⟨hupdate.timer, hupdate.live, hupdate.connected, hupdate.connecting, hupdate.reconnect,
      h.alternate, h.first, h.last, fun resolution hin => ?_⟩
    rcases List.mem_append.mp hin with hin | hin
    · exact h.resolutions resolution hin
    · obtain ⟨_, -, rfl⟩ := List.mem_map.mp hin
      exact hconnected
  · exact h

/-- A call waits, or the promise is rejected, unless the attempt is over. -/
theorem Sound.await (h : Sound t)
    (hpromise : ∀ a, t.attempts[k]? = some a → a.promise ≠ .resolved) : Sound (t.await k) := by
  unfold WebSocketTransport.await
  split
  · rename_i hresolved
    obtain ⟨a, ha, hresolved⟩ := Option.map_eq_some_iff.mp hresolved
    exact absurd hresolved (hpromise a ha)
  · exact ⟨h.timer, h.live, h.connected, h.connecting, h.reconnect, h.alternate, h.first, h.last,
      h.resolutions⟩
  · exact h
  · exact h

/-! ## Calls -/

/-- An attempt that is started when nothing else is under way is the current one. -/
theorem Sound.doConnect (h : Sound t) (hquiet : t.IsQuiet) (hconnected : t.connected = false)
    (hreconnect : t.reconnectTimeout = none) (reported : Bool) (thrown : Option String) :
    Sound (t.doConnect reported thrown) := by
  have hold : ∀ {new a : Attempt} {k : ℕ}, (t.attempts ++ [new])[k]? = some a →
      a.timer = false ∧ a.isLive = false ∨ k = t.attempts.length ∧ a = new := by
    intro new a k ha
    rcases Nat.lt_or_ge k t.attempts.length with hk | hk
    · rw [List.getElem?_append_left hk] at ha
      exact .inl (hquiet a (List.mem_of_getElem? ha))
    · rw [List.getElem?_append_right hk] at ha
      obtain ⟨hlt, ha⟩ := List.getElem?_eq_some_iff.mp ha
      have hk' : k = t.attempts.length :=
        le_antisymm (Nat.sub_eq_zero_iff_le.mp (Nat.lt_one_iff.mp hlt)) hk
      exact .inr ⟨hk', by simpa using ha.symm⟩
  have hclosed : ∀ {a : Attempt}, a.isLive = false → a.isOpen = true → False := by
    intro a hlive hopen
    exact absurd (hlive.symm.trans (isLive_of_isOpen hopen)) nofun
  cases thrown with
  | none =>
    refine ⟨fun ha htimer => ?_, fun ha hlive => ?_, ?_, fun _ => ?_,
      fun hne => absurd hreconnect hne, h.alternate, h.first, h.last, h.resolutions⟩
    · rcases hold ha with ⟨hoff, -⟩ | ⟨rfl, rfl⟩
      · exact absurd (hoff.symm.trans htimer) nofun
      · exact ⟨rfl, fun j hj => (Option.some.inj hj).symm⟩
    · rcases hold ha with ⟨-, hoff⟩ | ⟨rfl, rfl⟩
      · exact absurd (hoff.symm.trans hlive) nofun
      · rfl
    · refine ⟨fun hc => absurd (hconnected.symm.trans hc) nofun, ?_⟩
      rintro ⟨k, a, -, ha, hopen⟩
      rcases hold ha with ⟨-, hoff⟩ | ⟨rfl, rfl⟩
      · exact (hclosed hoff hopen).elim
      · cases hopen
    · exact ⟨hconnected, t.attempts.length, _, rfl, List.getElem?_concat_length, nofun⟩
  | some thrown =>
    have hfailed : Sound { t with
        attempts := t.attempts ++ [⟨false, none, .rejected thrown, reported⟩]
        isConnecting := false } := by
      refine ⟨fun ha htimer => ?_, fun ha hlive => ?_, ?_, nofun, fun hne => absurd hreconnect hne,
        h.alternate, h.first, h.last, h.resolutions⟩
      · rcases hold ha with ⟨hoff, -⟩ | ⟨-, rfl⟩
        · exact absurd (hoff.symm.trans htimer) nofun
        · cases htimer
      · rcases hold ha with ⟨-, hoff⟩ | ⟨-, rfl⟩
        · exact absurd (hoff.symm.trans hlive) nofun
        · cases hlive
      · refine ⟨fun hc => absurd (hconnected.symm.trans hc) nofun, ?_⟩
        rintro ⟨k, a, -, ha, hopen⟩
        rcases hold ha with ⟨-, hoff⟩ | ⟨-, rfl⟩
        · exact (hclosed hoff hopen).elim
        · cases hopen
    unfold WebSocketTransport.doConnect
    dsimp only
    split_ifs
    · exact ⟨hfailed.timer, hfailed.live, hfailed.connected, hfailed.connecting, hfailed.reconnect,
        h.alternate, h.first, h.last, h.resolutions⟩
    · exact hfailed

/-- The promise of a new attempt is not resolved yet. -/
theorem promise_doConnect (reported : Bool) (thrown : Option String) (a : Attempt)
    (ha : (t.doConnect reported thrown).attempts[t.attempts.length]? = some a) :
    a.promise ≠ .resolved := by
  cases thrown with
  | none =>
    have hnew : (t.doConnect reported none).attempts[t.attempts.length]? =
        some ⟨true, some ⟨.connecting, true⟩, .pending, reported⟩ := List.getElem?_concat_length
    rw [ha] at hnew
    cases hnew
    nofun
  | some thrown =>
    have hnew : (t.doConnect reported (some thrown)).attempts[t.attempts.length]? =
        some ⟨false, none, .rejected thrown, reported⟩ := by
      unfold WebSocketTransport.doConnect
      dsimp only
      split_ifs <;> exact List.getElem?_concat_length
    rw [ha] at hnew
    cases hnew
    nofun

theorem Sound.connect (h : Sound t) {thrown : Option String}
    (hslip : ¬ Slip t (.connect thrown)) : Sound (t.connect config thrown) := by
  have hcleared : Sound { t with reconnectTimeout := none } :=
    ⟨h.timer, h.live, h.connected, h.connecting, fun hne => absurd rfl hne, h.alternate, h.first,
      h.last, h.resolutions⟩
  unfold WebSocketTransport.connect
  dsimp only
  split_ifs with hconnected
  · refine ⟨h.timer, h.live, h.connected, h.connecting, fun hne => absurd rfl hne, h.alternate,
      h.first, h.last, fun resolution hin => ?_⟩
    rcases List.mem_append.mp hin with hin | hin
    · exact h.resolutions resolution hin
    · exact (List.mem_singleton.mp hin).trans hconnected
  · have hconnected : t.connected = false := Bool.eq_false_iff.mpr hconnected
    cases hjoined : t.joined with
    | some k =>
      -- the attempt that is waited for is the current one
      have hws : t.ws = some k := by
        by_contra hne
        refine hslip ⟨hconnected, ?_⟩
        rw [hjoined]
        exact hne
      have hconnecting : t.isConnecting = true := by
        by_contra hnot
        rw [joined, if_neg hnot] at hjoined
        cases hjoined
      obtain ⟨-, j, a, hj, ha, hpromise⟩ := h.connecting hconnecting
      obtain rfl := Option.some.inj (hws.symm.trans hj)
      refine hcleared.await fun b hb => ?_
      have hb : t.attempts[k]? = some b := hb
      rw [ha] at hb
      cases hb
      exact hpromise
    | none =>
      have hquiet : t.IsQuiet := by
        by_contra hnot
        refine hslip ⟨hconnected, ?_⟩
        rw [hjoined]
        exact hnot
      have hready : Sound
          { t with reconnectTimeout := none, shouldReconnect := config.reconnect } :=
        ⟨h.timer, h.live, h.connected, h.connecting, fun hne => absurd rfl hne, h.alternate,
          h.first, h.last, h.resolutions⟩
      have hstarted := hready.doConnect hquiet hconnected rfl false thrown
      have hkept : Sound { WebSocketTransport.doConnect
          { t with reconnectTimeout := none, shouldReconnect := config.reconnect } false thrown with
          connectionPromise := some t.attempts.length } :=
        ⟨hstarted.timer, hstarted.live, hstarted.connected, hstarted.connecting, hstarted.reconnect,
          hstarted.alternate, hstarted.first, hstarted.last, hstarted.resolutions⟩
      exact hkept.await (promise_doConnect false thrown)

/-! ### Notifications -/

/-- A change of the connection is notified after the opposite one. -/
theorem alternate_append {notifications : List Bool} {connected : Bool}
    (halternate : notifications.IsChain (· ≠ ·)) (hfirst : notifications.head? ≠ some false)
    (hlast : (!connected) = true ↔ notifications.getLast? = some true) :
    (notifications ++ [connected]).IsChain (· ≠ ·) ∧
      (notifications ++ [connected]).head? ≠ some false := by
  constructor
  · refine List.isChain_append.mpr ⟨halternate, .singleton _, ?_⟩
    rintro last hlast' _ ⟨⟩
    cases connected with
    | true =>
      rintro rfl
      exact absurd (hlast.mpr hlast') nofun
    | false =>
      have htrue := hlast.mp rfl
      rintro rfl
      exact absurd (Option.some.inj (htrue.symm.trans hlast')) nofun
  · cases notifications with
    | nil =>
      cases connected with
      | true => nofun
      | false => exact absurd (hlast.mp rfl) nofun
    | cons first rest => exact hfirst

theorem Sound.disconnect (h : Sound t) : Sound t.disconnect ∧ t.disconnect.ws = none := by
  let detached : WebSocketTransport δ :=
    { t with shouldReconnect := false, reconnectTimeout := none }.detach
  have hws : detached.ws = none := by
    unfold detached detach
    dsimp only
    split
    · rfl
    · assumption
  have hlive : ∀ {k : ℕ} {a : Attempt}, detached.attempts[k]? = some a → a.isLive = false := by
    intro k a ha
    unfold detached detach at ha
    dsimp only at ha
    split at ha
    · rename_i current hcurrent
      have ha : (t.update current _).attempts[k]? = some a := ha
      rw [getElem?_update] at ha
      split_ifs at ha with hk
      · obtain ⟨b, -, rfl⟩ := Option.map_eq_some_iff.mp ha
        obtain ⟨timer, socket, promise, reported⟩ := b
        cases socket <;> simp [Attempt.isLive, Attempt.withSocket]
      · refine Bool.eq_false_iff.mpr fun hlive => hk ?_
        exact Option.some.inj ((h.live ha hlive).symm.trans hcurrent)
    · rename_i hnone
      refine Bool.eq_false_iff.mpr fun hlive => ?_
      exact absurd (hnone.symm.trans (h.live ha hlive)) nofun
  have hopen : ∀ {k : ℕ} {a : Attempt}, detached.attempts[k]? = some a → a.isOpen = false := by
    intro k a ha
    refine Bool.eq_false_iff.mpr fun hopen => ?_
    exact absurd ((hlive ha).symm.trans (isLive_of_isOpen hopen)) nofun
  have hnotifications : detached.notifications = t.notifications := by
    unfold detached detach
    dsimp only
    split <;> rfl
  have hresolutions : detached.resolutions = t.resolutions := by
    unfold detached detach
    dsimp only
    split <;> rfl
  have hreconnect : detached.reconnectTimeout = none := by
    unfold detached detach
    dsimp only
    split <;> rfl
  have hdetached : ∀ (connected : Bool) (notifications : List Bool), connected = false →
      notifications.IsChain (· ≠ ·) → notifications.head? ≠ some false →
      notifications.getLast? ≠ some true →
      Sound { detached with
        connected, notifications, isConnecting := false, connectionPromise := none } := by
    rintro _ notifications rfl halternate hfirst hlast
    refine ⟨fun ha _ => ⟨hopen ha, fun j hj => ?_⟩, fun ha hl => ?_, ?_, nofun,
      fun hne => absurd hreconnect hne, halternate, hfirst, ⟨nofun, fun hl => absurd hl hlast⟩,
      hresolutions ▸ h.resolutions⟩
    · exact absurd (hws.symm.trans hj) nofun
    · exact absurd ((hlive ha).symm.trans hl) nofun
    · refine ⟨nofun, ?_⟩
      rintro ⟨k, a, hk, -⟩
      exact absurd (hws.symm.trans hk) nofun
  unfold WebSocketTransport.disconnect
  dsimp only
  split_ifs with hconnected
  · obtain ⟨halternate, hfirst⟩ := @alternate_append t.notifications false h.alternate h.first
      (by simpa [hconnected] using h.last)
    refine ⟨?_, hws⟩
    refine hdetached false (detached.notifications ++ [false]) rfl ?_ ?_ (by simp)
    · exact hnotifications ▸ halternate
    · exact hnotifications ▸ hfirst
  · have hconnected : t.connected = false := Bool.eq_false_iff.mpr hconnected
    refine ⟨?_, hws⟩
    have hsame : detached.connected = false := by
      unfold detached detach
      dsimp only
      split <;> exact hconnected
    refine hdetached detached.connected detached.notifications hsame ?_ ?_ fun hl => ?_
    · exact hnotifications ▸ h.alternate
    · exact hnotifications ▸ h.first
    · exact absurd (hconnected.symm.trans (h.last.mpr (hnotifications ▸ hl))) nofun

/-! ## Events of sockets, and timers -/

/-- The current attempt has changed, and no other one. -/
theorem Sound.current (h : Sound t) (hws : t.ws = some k)
    (hother : ∀ j, j ≠ k → u.attempts[j]? = t.attempts[j]?) (hk : u.attempts[k]? = some a)
    (huws : u.ws = some k) (htimer : a.timer = false) (hconnected : u.connected = a.isOpen)
    (hconnecting : u.isConnecting = true → u.connected = false ∧ a.promise ≠ .resolved)
    (hreconnect : u.reconnectTimeout ≠ none → u.connected = false ∧ a.isLive = false)
    (halternate : u.notifications.IsChain (· ≠ ·)) (hfirst : u.notifications.head? ≠ some false)
    (hlast : u.connected = true ↔ u.notifications.getLast? = some true)
    (hresolutions : u.resolutions = t.resolutions) : Sound u := by
  -- what acts on the transport is of the current attempt, as it was before
  have hback : ∀ {j : ℕ} {b : Attempt}, u.attempts[j]? = some b →
      j = k ∧ b = a ∨ b.timer = false ∧ b.isLive = false := by
    intro j b hb
    by_cases hj : j = k
    · rw [hj, hk] at hb
      exact .inl ⟨hj, (Option.some.inj hb).symm⟩
    · rw [hother j hj] at hb
      refine .inr ⟨Bool.eq_false_iff.mpr fun ht => ?_, Bool.eq_false_iff.mpr fun hl => ?_⟩
      · exact hj ((h.timer hb ht).2 k hws).symm
      · exact hj (Option.some.inj ((h.live hb hl).symm.trans hws))
  refine ⟨fun hb ht => ?_, fun hb hl => ?_, ?_, fun hc => ?_, fun hr => ?_, halternate, hfirst,
    hlast, hresolutions ▸ h.resolutions⟩
  · rcases hback hb with ⟨-, rfl⟩ | ⟨hoff, -⟩
    · exact absurd (htimer.symm.trans ht) nofun
    · exact absurd (hoff.symm.trans ht) nofun
  · rcases hback hb with ⟨rfl, -⟩ | ⟨-, hoff⟩
    · exact huws
    · exact absurd (hoff.symm.trans hl) nofun
  · rw [hconnected]
    constructor
    · exact fun hopen => ⟨k, a, huws, hk, hopen⟩
    · rintro ⟨j, b, hj, hb, hopen⟩
      obtain rfl := Option.some.inj (huws.symm.trans hj)
      rw [hk] at hb
      exact Option.some.inj hb ▸ hopen
  · obtain ⟨hoff, hpromise⟩ := hconnecting hc
    exact ⟨hoff, k, a, huws, hk, hpromise⟩
  · obtain ⟨hoff, hlive⟩ := hreconnect hr
    refine ⟨hoff, fun b hb => ?_, by rw [huws]; nofun⟩
    obtain ⟨j, hb⟩ := List.mem_iff_getElem?.mp hb
    rcases hback hb with ⟨-, rfl⟩ | hoff
    · exact ⟨htimer, hlive⟩
    · exact hoff

theorem kept_close {connecting : Bool} (h : a.isOpen = false) :
    Kept connecting a (a.withSocket WebSocket.close) := by
  obtain ⟨timer, socket, promise, reported⟩ := a
  cases socket with
  | none => exact .refl _ _
  | some ws =>
    obtain ⟨readyState, attached⟩ := ws
    refine ⟨id, ?_, ?_, fun _ => id⟩
    all_goals cases readyState <;> cases attached <;> first | rfl | cases h

/-- An error ends a socket that is not open yet. -/
theorem kept_error {connecting : Bool} :
    Kept connecting a (a.withSocket fun ws => { ws with
      readyState := if ws.readyState = .connecting then .closing else ws.readyState }) := by
  obtain ⟨timer, socket, promise, reported⟩ := a
  cases socket with
  | none => exact .refl _ _
  | some ws =>
    obtain ⟨readyState, attached⟩ := ws
    refine ⟨id, ?_, ?_, fun _ => id⟩
    all_goals cases readyState <;> cases attached <;> rfl

theorem Sound.onError (h : Sound t) (k : ℕ) : Sound (t.onError k) := by
  have hcleared := h.clearTimer k
  unfold WebSocketTransport.onError
  dsimp only
  split_ifs
  · refine Sound.reject ?_ k _
    exact ⟨hcleared.timer, hcleared.live, hcleared.connected, nofun, hcleared.reconnect,
      h.alternate, h.first, h.last, h.resolutions⟩
  · exact ⟨hcleared.timer, hcleared.live, hcleared.connected, hcleared.connecting,
      hcleared.reconnect, h.alternate, h.first, h.last, h.resolutions⟩

theorem Sound.onMessage (h : Sound t) (data : Option δ) : Sound (t.onMessage data) :=
  ⟨h.timer, h.live, h.connected, h.connecting, h.reconnect, h.alternate, h.first, h.last,
    h.resolutions⟩

/-- The timer of an attempt closes its own socket. -/
theorem Sound.onTimeout (h : Sound t) (ha : t.attempts[k]? = some a) (htimer : a.timer = true) :
    Sound (t.onTimeout k) := by
  obtain ⟨hopen, hcurrent⟩ := h.timer ha htimer
  have hcleared := h.clearTimer k
  unfold WebSocketTransport.onTimeout
  dsimp only
  refine Sound.reject ?_ k _
  split
  · rename_i current hws
    obtain rfl := hcurrent current hws
    refine hcleared.update fun b hb => kept_close ?_
    rw [WebSocketTransport.clearTimer, getElem?_update, if_pos rfl, ha] at hb
    cases hb
    exact hopen
  · exact hcleared

section SocketEvents

variable {ws : WebSocket} {possible : ReadyState → Bool} {after : ReadyState → ReadyState}
  {handler : WebSocketTransport δ → WebSocketTransport δ}

theorem socketEvent_cases (h : t.socketEvent k possible after handler = some u) :
    ∃ a ws, t.attempts[k]? = some a ∧ a.socket = some ws ∧ possible ws.readyState = true ∧
      (ws.attached = true ∧ u = handler (t.update k fun a => a.withSocket fun ws =>
          { ws with readyState := after ws.readyState }) ∨
        ws.attached = false ∧ u = t.update k fun a => a.withSocket fun ws =>
          { ws with readyState := after ws.readyState }) := by
  obtain ⟨ws, hws, h⟩ := Option.bind_eq_some_iff.mp h
  obtain ⟨a, ha, hws⟩ := Option.bind_eq_some_iff.mp hws
  split_ifs at h with hpossible hattached
  · exact ⟨a, ws, ha, hws, hpossible, .inl ⟨hattached, (Option.some.inj h).symm⟩⟩
  · exact ⟨a, ws, ha, hws, hpossible,
      .inr ⟨Bool.eq_false_iff.mpr hattached, (Option.some.inj h).symm⟩⟩

theorem isLive_of_attached (hsocket : a.socket = some ws) (hattached : ws.attached = true)
    (hstate : ws.readyState ≠ .closed) : a.isLive = true := by
  simp [Attempt.isLive, hsocket, hattached, hstate]

theorem Sound.onOpen (h : Sound t) (ha : t.attempts[k]? = some a) (hsocket : a.socket = some ws)
    (hattached : ws.attached = true) (hstate : ws.readyState = .connecting) :
    Sound (onOpen (t.update k fun a => a.withSocket fun ws =>
      { ws with readyState := .open }) k) := by
  have hlive := isLive_of_attached hsocket hattached (by rw [hstate]; nofun)
  have hws := h.live ha hlive
  have hconnected : t.connected = false := by
    refine Bool.eq_false_iff.mpr fun hc => ?_
    obtain ⟨j, b, hj, hb, hopen⟩ := h.connected.mp hc
    obtain rfl := Option.some.inj (hws.symm.trans hj)
    rw [ha] at hb
    cases hb
    simp [Attempt.isOpen, hsocket, hstate] at hopen
  have hreconnect : t.reconnectTimeout = none := by
    by_contra hne
    exact absurd (((h.reconnect hne).2.1 a (List.mem_of_getElem? ha)).2.symm.trans hlive) nofun
  obtain ⟨halternate, hfirst⟩ := @alternate_append t.notifications true h.alternate h.first
    (by simpa [hconnected] using h.last)
  let opened : WebSocketTransport δ :=
    notifyConnectionChange { (t.update k fun a => a.withSocket fun ws =>
      { ws with readyState := .open }).clearTimer k with
      connected := true, isConnecting := false, reconnectAttempts := 0 } true
  have hopened : Sound opened := by
    refine h.current hws (a := { a.withSocket fun ws =>
      { ws with readyState := .open } with timer := false }) ?_ ?_ hws rfl ?_ nofun
      (fun hne => absurd hreconnect hne) halternate hfirst ?_ rfl
    · intro j hj
      show ((t.update k _).clearTimer k).attempts[j]? = _
      rw [WebSocketTransport.clearTimer, getElem?_update, if_neg hj, getElem?_update, if_neg hj]
    · show ((t.update k _).clearTimer k).attempts[k]? = _
      rw [WebSocketTransport.clearTimer, getElem?_update, if_pos rfl, getElem?_update, if_pos rfl,
        ha]
      rfl
    · show true = Attempt.isOpen _
      simp [Attempt.isOpen, Attempt.withSocket, hsocket, hattached]
    · simp [opened, notifyConnectionChange]
  exact hopened.resolve k rfl rfl

/-- The current socket closes, and nothing is under way any more. -/
theorem Sound.onClose (h : Sound t) (ha : t.attempts[k]? = some a) (hsocket : a.socket = some ws)
    (hattached : ws.attached = true) (hstate : ws.readyState ≠ .closed) :
    Sound (WebSocketTransport.onClose config (t.update k fun a => a.withSocket fun ws =>
      { ws with readyState := .closed }) k) := by
  have hws := h.live ha (isLive_of_attached hsocket hattached hstate)
  have hclosed : ∀ {v : WebSocketTransport δ} {notifications : List Bool},
      notifications.IsChain (· ≠ ·) → notifications.head? ≠ some false →
      notifications.getLast? ≠ some true →
      v.attempts = ((t.update k fun a => a.withSocket fun ws =>
        { ws with readyState := .closed }).clearTimer k).attempts →
      v.ws = t.ws → v.connected = false → v.isConnecting = false →
      v.notifications = notifications → v.resolutions = t.resolutions → Sound v := by
    intro v notifications halternate hfirst hlast hattempts hvws hoff hconnecting hn hresolutions
    refine h.current hws (a := { a.withSocket fun ws =>
      { ws with readyState := .closed } with timer := false }) ?_ ?_ (hvws.trans hws) rfl ?_ ?_ ?_
      (hn ▸ halternate) (hn ▸ hfirst) ?_ hresolutions
    · intro j hj
      rw [hattempts, WebSocketTransport.clearTimer, getElem?_update, if_neg hj, getElem?_update,
        if_neg hj]
    · rw [hattempts, WebSocketTransport.clearTimer, getElem?_update, if_pos rfl, getElem?_update,
        if_pos rfl, ha]
      rfl
    · rw [hoff]
      simp [Attempt.isOpen, Attempt.withSocket, hsocket]
    · exact fun hc => absurd (hconnecting.symm.trans hc) nofun
    · exact fun _ => ⟨hoff, by simp [Attempt.isLive, Attempt.withSocket, hsocket]⟩
    · rw [hoff, hn]
      exact ⟨nofun, fun hl => absurd hl hlast⟩
  have hschedule : ∀ {v : WebSocketTransport δ},
      (v.scheduleReconnect config).attempts = v.attempts ∧
      (v.scheduleReconnect config).ws = v.ws ∧
      (v.scheduleReconnect config).connected = v.connected ∧
      (v.scheduleReconnect config).isConnecting = v.isConnecting ∧
      (v.scheduleReconnect config).notifications = v.notifications ∧
      (v.scheduleReconnect config).resolutions = v.resolutions := by
    intro v
    unfold scheduleReconnect
    split_ifs <;> exact ⟨rfl, rfl, rfl, rfl, rfl, rfl⟩
  unfold WebSocketTransport.onClose
  dsimp only
  split_ifs with hconnected
  · have hconnected : t.connected = true := hconnected
    obtain ⟨halternate, hfirst⟩ := @alternate_append t.notifications false h.alternate h.first
      (by simpa [hconnected] using h.last)
    obtain ⟨hattempts, hvws, hoff, hconnecting, hn, hresolutions⟩ := @hschedule
      (notifyConnectionChange { (t.update k fun a => a.withSocket fun ws =>
        { ws with readyState := .closed }).clearTimer k with
        connected := false, isConnecting := false } false)
    exact hclosed halternate hfirst (by simp) hattempts hvws hoff hconnecting hn hresolutions
  · have hconnected : t.connected = false := Bool.eq_false_iff.mpr hconnected
    obtain ⟨hattempts, hvws, hoff, hconnecting, hn, hresolutions⟩ := @hschedule
      { (t.update k fun a => a.withSocket fun ws =>
        { ws with readyState := .closed }).clearTimer k with
        connected := false, isConnecting := false }
    exact hclosed h.alternate h.first
      (fun hl => absurd (hconnected.symm.trans (h.last.mpr hl)) nofun) hattempts hvws hoff
      hconnecting hn hresolutions

end SocketEvents

/-- **The step lemma.** -/
theorem Sound.next (h : Sound t) {e : Event δ} (hs : t.next config e = some u)
    (hslip : ¬ Slip t e) : Sound u := by
  cases e with
  | connect thrown =>
    cases hs
    exact h.connect hslip
  | disconnect =>
    cases hs
    exact h.disconnect.1
  | send data =>
    cases hs
    unfold send
    split
    · split_ifs
      · exact ⟨h.timer, h.live, h.connected, h.connecting, h.reconnect, h.alternate, h.first,
          h.last, h.resolutions⟩
      · exact h
    · exact h
  | opens k =>
    have hs : t.socketEvent k (· = .connecting) (fun _ => .open) (fun t => t.onOpen k) = some u :=
      hs
    obtain ⟨a, ws, ha, hsocket, hstate, ⟨hattached, rfl⟩ | ⟨hattached, rfl⟩⟩ := socketEvent_cases hs
    · exact h.onOpen ha hsocket hattached (of_decide_eq_true hstate)
    · exact h.detached (fun _ => .open) (by rw [ha]; exact hsocket) hattached
  | errs k =>
    have hs : t.socketEvent k (· ≠ .closed)
        (fun state => if state = .connecting then .closing else state)
        (fun t => t.onError k) = some u := hs
    obtain ⟨a, ws, ha, hsocket, hstate, ⟨hattached, rfl⟩ | ⟨hattached, rfl⟩⟩ := socketEvent_cases hs
    · exact (h.update fun _ _ => kept_error).onError k
    · exact h.update fun _ _ => kept_error
  | closes k =>
    have hs : t.socketEvent k (· ≠ .closed) (fun _ => .closed)
        (fun t => t.onClose config k) = some u := hs
    obtain ⟨a, ws, ha, hsocket, hstate, ⟨hattached, rfl⟩ | ⟨hattached, rfl⟩⟩ := socketEvent_cases hs
    · exact h.onClose ha hsocket hattached (of_decide_eq_true hstate)
    · exact h.detached (fun _ => .closed) (by rw [ha]; exact hsocket) hattached
  | message k data =>
    have hsame : Sound (t.update k fun a => a.withSocket fun ws =>
        { ws with readyState := id ws.readyState }) := by
      refine h.update fun a _ => ?_
      obtain ⟨timer, socket, promise, reported⟩ := a
      cases socket <;> exact .refl _ _
    have hs : t.socketEvent k (· = .open) id (fun t => t.onMessage data) = some u := hs
    obtain ⟨a, ws, ha, hsocket, hstate, ⟨hattached, rfl⟩ | ⟨hattached, rfl⟩⟩ := socketEvent_cases hs
    · exact hsame.onMessage data
    · exact hsame
  | timeout k =>
    simp only [WebSocketTransport.next] at hs
    split_ifs at hs with hany
    cases hs
    obtain ⟨a, ha, htimer⟩ := (Option.any_eq_true _ _).mp hany
    exact h.onTimeout ha htimer
  | reconnect thrown =>
    simp only [WebSocketTransport.next] at hs
    split_ifs at hs with hsome
    cases hs
    obtain ⟨hconnected, hquiet, -⟩ := h.reconnect (Option.isSome_iff_ne_none.mp hsome)
    have hcleared : Sound { t with reconnectTimeout := none } :=
      ⟨h.timer, h.live, h.connected, h.connecting, fun hne => absurd rfl hne, h.alternate, h.first,
        h.last, h.resolutions⟩
    exact hcleared.doConnect hquiet hconnected rfl true thrown

end WebSocketTransport

end N8n.Crdt
