import Mathlib.Data.Finset.SDiff
import Mathlib.Logic.Function.Iterate
import N8n.Crdt.WebSocketTransport

/-!
# Two documents kept in step

A provider wires a document to a transport. It sends the whole document when it starts, and each
update of the document after that for which the transport is connected. What it receives is applied
to the document.

Merging is commutative, associative and idempotent, so that a document is the set of the updates
that it has applied, and what is sent is a set of updates: all of them for the encoded state. An
update is passed on to the handlers of a document, wherever it comes from, as long as it has
something new.

Two providers are linked by a network that keeps what a transport has sent until it is delivered, to
a socket of the other transport that is open. Messages may overtake each other.

## Main definitions

* `BaseSyncProvider`: a document, a transport, and the subscriptions to both
* `BaseSyncProvider.start`, `BaseSyncProvider.resume`, `BaseSyncProvider.stop`: the calls
* `BaseSyncProvider.applyUpdate`, `BaseSyncProvider.receive`: the handlers
* `Peers.next`: the steps of two providers and of the network between them
* `synchronization`: two providers as a transition system
-/

namespace N8n.Crdt

namespace WebSocketTransport

variable {δ : Type} (t : WebSocketTransport δ)

/-- The attempt whose promise a call of `connect` waits for. Without one it returns at once. -/
def awaited : Option ℕ :=
  if t.connected then none else some (t.joined.getD t.attempts.length)

/-- A call of `send` does not throw. -/
def canSend : Bool := t.connected && t.ws.isSome

end WebSocketTransport

/-! ## Providers -/

structure BaseSyncProvider (υ : Type) where
  /-- The updates that the document has applied. -/
  doc : Finset υ
  transport : WebSocketTransport (Finset υ)
  syncing : Bool
  /-- The calls of `start` under way, with the attempts whose promises they wait for. -/
  starting : List (Option ℕ)
  /-- How many handlers are subscribed to the document. -/
  docHandlers : ℕ
  /-- How many handlers are subscribed to the transport. -/
  receiveHandlers : ℕ
  /-- The last of the handlers on the document is kept, to be taken off. -/
  unsubscribeDoc : Bool
  unsubscribeTransport : Bool
  states : List Bool
  errors : List String

namespace BaseSyncProvider

variable {υ : Type} [DecidableEq υ] (config : WebSocketTransportConfig) (p : BaseSyncProvider υ)

/-- A provider for a document, before it was ever started. -/
def create (doc : Finset υ) : BaseSyncProvider υ where
  doc := doc
  transport := .initial
  syncing := false
  starting := []
  docHandlers := 0
  receiveHandlers := 0
  unsubscribeDoc := false
  unsubscribeTransport := false
  states := []
  errors := []

/-! ### The handlers -/

/-- The handlers on the document, for an update. -/
def emit (update : Finset υ) : BaseSyncProvider υ :=
  { p with
    transport :=
      (fun t => if t.connected then t.send update else t)^[p.docHandlers] p.transport }

/-- `doc.applyUpdate(update)`. An update with nothing new is not passed on. -/
def applyUpdate (update : Finset υ) : BaseSyncProvider υ :=
  if update ⊆ p.doc then p
  else { p with doc := p.doc ∪ update }.emit (update \ p.doc)

/-- A handler on the document throws, since the transport has no socket. -/
def throws (update : Finset υ) : Bool :=
  !decide (update ⊆ p.doc) && decide (0 < p.docHandlers) && p.transport.connected &&
    p.transport.ws.isNone

def notifyError (error : String) : BaseSyncProvider υ :=
  { p with errors := p.errors ++ [error] }

def receive (data : Finset υ) : BaseSyncProvider υ :=
  if p.throws data then (p.applyUpdate data).notifyError "Transport not connected"
  else p.applyUpdate data

/-! ### The calls -/

def notifyStateChange (syncing : Bool) : BaseSyncProvider υ :=
  { p with syncing := syncing, states := p.states ++ [syncing] }

/-- `start()`, up to the connection of the transport. -/
def start (thrown : Option String) : BaseSyncProvider υ :=
  if p.syncing then p
  else
    { p with
      transport := p.transport.connect config thrown
      starting := p.starting ++ [p.transport.awaited] }

/-- The rest of `start()`. When the state cannot be sent, the subscriptions stay. -/
def connected : BaseSyncProvider υ :=
  let subscribed : BaseSyncProvider υ :=
    { p with
      receiveHandlers := p.receiveHandlers + 1
      unsubscribeTransport := true
      docHandlers := p.docHandlers + 1
      unsubscribeDoc := true }
  if p.transport.canSend then
    { subscribed with transport := p.transport.send p.doc }.notifyStateChange true
  else subscribed

/-- What has become of the promise that a call of `start` waits for. -/
def outcome : Option ℕ → Settlement
  | none => .resolved
  | some k => (p.transport.attempts[k]?.map Attempt.promise).getD .pending

/-- A call of `start` goes on. -/
def resume (i : ℕ) : Option (BaseSyncProvider υ) :=
  p.starting[i]?.bind fun attempt =>
    let resumed : BaseSyncProvider υ := { p with starting := p.starting.eraseIdx i }
    match p.outcome attempt with
    | .pending => none
    | .resolved => some resumed.connected
    | .rejected _ => some resumed

def stop : BaseSyncProvider υ :=
  if p.syncing then
    { p with
      docHandlers := if p.unsubscribeDoc then p.docHandlers - 1 else p.docHandlers
      unsubscribeDoc := false
      receiveHandlers :=
        if p.unsubscribeTransport then p.receiveHandlers - 1 else p.receiveHandlers
      unsubscribeTransport := false
      transport := p.transport.disconnect }.notifyStateChange false
  else p

end BaseSyncProvider

/-! ## Two of them -/

inductive Side
  | left | right
deriving DecidableEq, Repr

def Side.peer : Side → Side
  | .left => .right
  | .right => .left

/-- A provider, and the messages of its peer that were delivered to it, by their places among all
that the peer has sent. -/
structure Peer (υ : Type) where
  provider : BaseSyncProvider υ
  delivered : Finset ℕ

inductive SyncEvent (υ : Type)
  /-- The constructor of the socket may throw. -/
  | start (side : Side) (thrown : Option String)
  /-- A call of `start` goes on, after the transport. -/
  | resume (side : Side) (call : ℕ)
  | stop (side : Side)
  /-- A local change of the document. -/
  | edit (side : Side) (update : Finset υ)
  /-- A step of the transport, or a call of somebody else to connect or disconnect it. -/
  | transport (side : Side) (event : Event (Finset υ))
  /-- A message from the peer reaches a socket. -/
  | deliver (side : Side) (message : ℕ) (attempt : ℕ)

/-- An event is neither a call of `send` nor the delivery of a message. -/
def Event.isConnection {δ : Type} : Event δ → Bool
  | .send _ | .message _ _ => false
  | .connect _ | .disconnect | .opens _ | .errs _ | .closes _ | .timeout _ | .reconnect _ => true

/-- Two sides that are linked. -/
abbrev Peers (υ : Type) := Side → Peer υ

namespace Peers

variable {υ : Type} [DecidableEq υ] (config : Side → WebSocketTransportConfig) (s : Peers υ)

/-- Two providers for their documents. -/
def create (docs : Side → Finset υ) : Peers υ := fun side => ⟨.create (docs side), ∅⟩

/-- The documents of the two sides. -/
def doc (side : Side) : Finset υ := (s side).provider.doc

def sent (side : Side) : List (ℕ × Finset υ) := (s side).provider.transport.sent

def set (side : Side) (p : BaseSyncProvider υ) : Peers υ :=
  Function.update s side { s side with provider := p }

/-- A message is delivered once, to a socket that is open. -/
def deliver (side : Side) (message attempt : ℕ) : Option (Peers υ) :=
  let p := (s side).provider
  match (s.sent side.peer)[message]? with
  | none => none
  | some (_, data) =>
    if message ∉ (s side).delivered ∧ p.transport.attempts[attempt]?.any Attempt.isOpen then
      (p.transport.next (config side) (.message attempt (some data))).map fun t =>
        let arrived : BaseSyncProvider υ := { p with transport := t }
        Function.update s side
          { provider := (fun p => p.receive data)^[p.receiveHandlers] arrived
            delivered := insert message (s side).delivered }
    else none

def next : SyncEvent υ → Option (Peers υ)
  | .start side thrown => some (s.set side ((s side).provider.start (config side) thrown))
  | .resume side call => ((s side).provider.resume call).map (s.set side)
  | .stop side => some (s.set side (s side).provider.stop)
  | .edit side update => some (s.set side ((s side).provider.applyUpdate update))
  | .transport side event =>
    if event.isConnection then
      ((s side).provider.transport.next (config side) event).map fun t =>
        s.set side { (s side).provider with transport := t }
    else none
  | .deliver side message attempt => s.deliver config side message attempt

end Peers

/-- Two providers, each with a document of its own. -/
def synchronization (υ : Type) [DecidableEq υ] (config : Side → WebSocketTransportConfig) :
    Transition.System (Peers υ) (SyncEvent υ) where
  init s := ∃ docs, s = .create docs
  step s e t := s.next config e = some t

end N8n.Crdt
