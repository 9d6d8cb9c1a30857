import Mathlib.Algebra.Field.Rat
import Mathlib.Algebra.Order.Ring.Unbundled.Rat
import N8n.Foundations.Transition

/-!
# A transport over web sockets

A transport connects by attempts, each with a socket, a timer and a promise. It keeps the socket of
the last attempt only. A socket that closes is followed by another attempt after a delay, which
grows from one to the next. The timer of an attempt closes whatever socket the transport has when it
fires.

A socket counts as open from its open event to its close event. What handlers are told is kept in
order: changes of the connection, errors, and data.

## Main definitions

* `Attempt`, `WebSocketTransport`: the attempts so far, and the fields of a transport
* `WebSocketTransport.connect`, `WebSocketTransport.disconnect`: the calls
* `WebSocketTransport.next`: the steps
* `transport`: transports as a transition system
-/

namespace N8n.Crdt

/-! ## Attempts -/

inductive ReadyState
  | connecting | open | closing | closed
deriving DecidableEq, Repr

structure WebSocket where
  readyState : ReadyState
  /-- Its handlers are set. -/
  attached : Bool
deriving DecidableEq, Repr

/-- `ws.close()` -/
def WebSocket.close (ws : WebSocket) : WebSocket :=
  match ws.readyState with
  | .connecting | .open => { ws with readyState := .closing }
  | .closing | .closed => ws

inductive Settlement
  | pending | resolved
  | rejected (error : String)
deriving DecidableEq, Repr

/-- An execution of `doConnect`. -/
structure Attempt where
  /-- The connection timeout is armed. -/
  timer : Bool
  /-- The socket, unless its constructor has thrown. -/
  socket : Option WebSocket
  promise : Settlement
  /-- It was started by the reconnect timer, which reports that the promise is rejected. -/
  reported : Bool
deriving DecidableEq, Repr

namespace Attempt

variable (a : Attempt)

def withSocket (f : WebSocket → WebSocket) : Attempt := { a with socket := a.socket.map f }

def isLive : Bool := a.socket.any fun ws => ws.attached && ws.readyState ≠ .closed

def isOpen : Bool := a.socket.any fun ws => ws.attached && ws.readyState = .open

end Attempt

/-! ## Transports -/

structure WebSocketTransportConfig where
  reconnect : Bool
  /-- Without a value there is no limit. -/
  maxReconnectAttempts : Option ℕ
  reconnectDelay : ℚ
  maxReconnectDelay : ℚ
  reconnectBackoff : ℚ

structure WebSocketTransport (δ : Type) where
  attempts : List Attempt
  /-- The attempt whose socket is kept. -/
  ws : Option ℕ
  connected : Bool
  reconnectAttempts : ℕ
  /-- The delay of the reconnect timer, when it is armed. -/
  reconnectTimeout : Option ℚ
  shouldReconnect : Bool
  isConnecting : Bool
  /-- The attempt whose promise is kept. -/
  connectionPromise : Option ℕ
  /-- The attempts for which calls of `connect` wait. -/
  waiting : List ℕ
  /-- Whether the transport was connected when a call of `connect` was resolved. -/
  resolutions : List Bool
  notifications : List Bool
  errors : List String
  received : List δ
  sent : List (ℕ × δ)

inductive Event (δ : Type)
  /-- The constructor of the socket may throw. -/
  | connect (thrown : Option String)
  | disconnect
  | send (data : δ)
  | opens (attempt : ℕ)
  | errs (attempt : ℕ)
  | closes (attempt : ℕ)
  /-- Only an array buffer has data. -/
  | message (attempt : ℕ) (data : Option δ)
  | timeout (attempt : ℕ)
  | reconnect (thrown : Option String)

namespace WebSocketTransport

variable {δ : Type}

def initial : WebSocketTransport δ where
  attempts := []
  ws := none
  connected := false
  reconnectAttempts := 0
  reconnectTimeout := none
  shouldReconnect := false
  isConnecting := false
  connectionPromise := none
  waiting := []
  resolutions := []
  notifications := []
  errors := []
  received := []
  sent := []

section Operations

variable (config : WebSocketTransportConfig) (t : WebSocketTransport δ)

def update (k : ℕ) (f : Attempt → Attempt) : WebSocketTransport δ :=
  { t with attempts := t.attempts.modify k f }

def clearTimer (k : ℕ) : WebSocketTransport δ := t.update k fun a => { a with timer := false }

def notifyConnectionChange (connected : Bool) : WebSocketTransport δ :=
  { t with notifications := t.notifications ++ [connected] }

def notifyError (error : String) : WebSocketTransport δ :=
  { t with errors := t.errors ++ [error] }

/-! ### Promises -/

def isPending (k : ℕ) : Bool := t.attempts[k]?.any fun a => a.promise = .pending

/-- The calls that wait for the attempt are resolved with it. -/
def resolve (k : ℕ) : WebSocketTransport δ :=
  if t.isPending k then
    { t.update k fun a => { a with promise := .resolved } with
      waiting := t.waiting.filter (· ≠ k)
      resolutions := t.resolutions ++ (t.waiting.filter (· = k)).map fun _ => t.connected }
  else t

def reject (k : ℕ) (error : String) : WebSocketTransport δ :=
  if t.isPending k then
    let rejected : WebSocketTransport δ :=
      { t.update k fun a => { a with promise := .rejected error } with
        waiting := t.waiting.filter (· ≠ k) }
    if t.attempts[k]?.any Attempt.reported then rejected.notifyError error else rejected
  else t

def await (k : ℕ) : WebSocketTransport δ :=
  match t.attempts[k]?.map Attempt.promise with
  | some .resolved => { t with resolutions := t.resolutions ++ [t.connected] }
  | some .pending => { t with waiting := t.waiting ++ [k] }
  | some (.rejected _) | none => t

/-! ### Calls -/

/-- A new attempt. When the constructor throws, the socket of before is kept. -/
def doConnect (reported : Bool) : Option String → WebSocketTransport δ
  | none =>
    { t with
      attempts := t.attempts ++ [⟨true, some ⟨.connecting, true⟩, .pending, reported⟩]
      ws := some t.attempts.length
      isConnecting := true }
  | some thrown =>
    let failed : WebSocketTransport δ :=
      { t with
        attempts := t.attempts ++ [⟨false, none, .rejected thrown, reported⟩]
        isConnecting := false }
    if reported then failed.notifyError thrown else failed

/-- The attempt for which a call of `connect` waits, if there is one. -/
def joined : Option ℕ := if t.isConnecting then t.connectionPromise else none

def connect (thrown : Option String) : WebSocketTransport δ :=
  let cleared : WebSocketTransport δ := { t with reconnectTimeout := none }
  if t.connected then { cleared with resolutions := t.resolutions ++ [t.connected] }
  else
    match t.joined with
    | some k => cleared.await k
    | none =>
      let started : WebSocketTransport δ :=
        { cleared with shouldReconnect := config.reconnect }.doConnect false thrown
      { started with connectionPromise := some t.attempts.length }.await t.attempts.length

/-- The handlers of the socket are taken off, and it is closed. -/
def detach : WebSocketTransport δ :=
  match t.ws with
  | some k =>
    { t.update k fun a => a.withSocket fun ws => { ws.close with attached := false } with
      ws := none }
  | none => t

def disconnect : WebSocketTransport δ :=
  let detached : WebSocketTransport δ :=
    { t with shouldReconnect := false, reconnectTimeout := none }.detach
  let notified : WebSocketTransport δ :=
    if t.connected then { detached with connected := false }.notifyConnectionChange false
    else detached
  { notified with isConnecting := false, connectionPromise := none }

/-- Nothing is sent while the transport is not connected: the call throws. -/
def send (data : δ) : WebSocketTransport δ :=
  match t.ws with
  | some k => if t.connected then { t with sent := t.sent ++ [(k, data)] } else t
  | none => t

/-! ### Handlers of sockets -/

def onOpen (k : ℕ) : WebSocketTransport δ :=
  let opened : WebSocketTransport δ :=
    { t.clearTimer k with connected := true, isConnecting := false, reconnectAttempts := 0 }
  (opened.notifyConnectionChange true).resolve k

/-- The delay before the next attempt, after so many of them. -/
def delay : ℚ :=
  min (config.reconnectDelay * config.reconnectBackoff ^ t.reconnectAttempts)
    config.maxReconnectDelay

def scheduleReconnect : WebSocketTransport δ :=
  if t.shouldReconnect then
    if config.maxReconnectAttempts.any (· ≤ t.reconnectAttempts) then
      t.notifyError "Max reconnection attempts reached"
    else
      { t with
        reconnectAttempts := t.reconnectAttempts + 1, reconnectTimeout := some (t.delay config) }
  else t

def onClose (k : ℕ) : WebSocketTransport δ :=
  let closed : WebSocketTransport δ :=
    { t.clearTimer k with connected := false, isConnecting := false }
  let notified : WebSocketTransport δ :=
    if t.connected then closed.notifyConnectionChange false else closed
  notified.scheduleReconnect config

def onError (k : ℕ) : WebSocketTransport δ :=
  let notified : WebSocketTransport δ := (t.clearTimer k).notifyError "WebSocket error"
  if t.isConnecting then { notified with isConnecting := false }.reject k "WebSocket error"
  else notified

def onMessage (data : Option δ) : WebSocketTransport δ :=
  { t with received := t.received ++ data.toList }

def onTimeout (k : ℕ) : WebSocketTransport δ :=
  let fired : WebSocketTransport δ := t.clearTimer k
  let closed : WebSocketTransport δ :=
    match t.ws with
    | some current => fired.update current fun a => a.withSocket WebSocket.close
    | none => fired
  closed.reject k "Connection timeout"

/-- An event of a socket in a state in which it may happen. The handlers are called if they are
set. -/
def socketEvent (k : ℕ) (possible : ReadyState → Bool) (after : ReadyState → ReadyState)
    (handler : WebSocketTransport δ → WebSocketTransport δ) : Option (WebSocketTransport δ) :=
  (t.attempts[k]?.bind Attempt.socket).bind fun ws =>
    if possible ws.readyState then
      let changed : WebSocketTransport δ :=
        t.update k fun a => a.withSocket fun ws => { ws with readyState := after ws.readyState }
      some (if ws.attached then handler changed else changed)
    else none

/-- An error of a socket that is not open yet is the end of it. -/
def next : Event δ → Option (WebSocketTransport δ)
  | .connect thrown => some (t.connect config thrown)
  | .disconnect => some t.disconnect
  | .send data => some (t.send data)
  | .opens k =>
    t.socketEvent k (· = .connecting) (fun _ => .open) fun t => t.onOpen k
  | .errs k =>
    t.socketEvent k (· ≠ .closed)
      (fun state => if state = .connecting then .closing else state) fun t => t.onError k
  | .closes k =>
    t.socketEvent k (· ≠ .closed) (fun _ => .closed) fun t => t.onClose config k
  | .message k data =>
    t.socketEvent k (· = .open) id fun t => t.onMessage data
  | .timeout k =>
    if t.attempts[k]?.any Attempt.timer then some (t.onTimeout k) else none
  | .reconnect thrown =>
    if t.reconnectTimeout.isSome then
      some ({ t with reconnectTimeout := none }.doConnect true thrown)
    else none

end Operations

end WebSocketTransport

def transport (δ : Type) (config : WebSocketTransportConfig) :
    Transition.System (WebSocketTransport δ) (Event δ) where
  init t := t = .initial
  step t e u := t.next config e = some u

end N8n.Crdt
