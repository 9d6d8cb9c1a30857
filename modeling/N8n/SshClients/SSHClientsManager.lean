import N8n.Foundations.OrderedMap
import N8n.Foundations.Transition

/-!
# A registry of SSH clients

A manager keeps one client for each configuration, under its hash. The handlers of a client are
there for as long as it is, and know it by that hash only. To clean up a hash is to end the client
that is registered under it, and to abort its controller, which cleans up whatever else was
registered with the same controller.

Clients are numbered in the order of their creation. A client that is ended is noted together with
what it was ended for.

## Main definitions

* `SshClient`, `Registration`: a client with its promise, and its entry in the registry
* `SSHClientsManager.cleanupClient`: what the handlers do
* `SSHClientsManager.getClient`: the client for some credentials
* `SSHClientsManager.next`: the steps
* `manager`: managers as a transition system
-/

namespace N8n.SshClients

/-! ## Configurations -/

inductive SSHCredentials
  | password (sshHost : String) (sshPort : ℕ) (sshUser : String) (sshPassword : String)
  | privateKey (sshHost : String) (sshPort : ℕ) (sshUser : String) (privateKey : String)
      (passphrase : Option String)
deriving DecidableEq

inductive Authentication
  | password (password : String)
  | privateKey (privateKey : String) (passphrase : Option String)
deriving DecidableEq

structure ConnectConfig where
  host : String
  port : ℕ
  username : String
  authentication : Authentication
deriving DecidableEq

def SSHCredentials.sshConfig : SSHCredentials → ConnectConfig
  | .password host port user secret => ⟨host, port, user, .password secret⟩
  | .privateKey host port user key passphrase => ⟨host, port, user, .privateKey key passphrase⟩

/-! ## Clients -/

/-- A controller that callers have, or the one made for a client. -/
inductive Controller
  | given (controller : ℕ)
  | own (client : ℕ)
deriving DecidableEq, Repr

inductive Settlement
  | pending | resolved | rejected
deriving DecidableEq, Repr

structure SshClient (η : Type) where
  sshConfig : ConnectConfig
  /-- The hash that its handlers know. -/
  clientHash : η
  abortController : Controller
  returnPromise : Settlement
  /-- `end()` was called. -/
  ended : Bool
  /-- Its socket was closed. -/
  closed : Bool

structure Registration where
  client : ℕ
  lastUsed : ℕ
  abortController : Controller
deriving DecidableEq

inductive Cause
  | event (client : ℕ)
  | abort (controller : Controller)
  | idle (client : ℕ)
  | shutdown
deriving DecidableEq

structure SSHClientsManager (η : Type) where
  now : ℕ
  created : List (SshClient η)
  clients : OrderedMap η Registration
  aborted : List Controller
  /-- The hashes that the handlers of abort signals clean up, in the order of the handlers. -/
  listeners : List (Controller × η)
  /-- The clients that were ended, with the causes. -/
  ends : List (ℕ × Cause)

inductive Event
  | wait (ms : ℕ)
  /-- A controller may be given. The connection may fail at once. -/
  | getClient (credentials : SSHCredentials) (abortController : Option ℕ) (throws : Bool)
  | updateLastUsed (client : ℕ)
  | ready (client : ℕ)
  | error (client : ℕ)
  | ends (client : ℕ)
  | closes (client : ℕ)
  | abort (controller : Controller)
  | cleanupStaleConnections
  | shutdown

namespace SSHClientsManager

variable {η : Type}

def initial : SSHClientsManager η where
  now := 0
  created := []
  clients := .empty
  aborted := []
  listeners := []
  ends := []

section Operations

variable (t : SSHClientsManager η)

def update (k : ℕ) (f : SshClient η → SshClient η) : SSHClientsManager η :=
  { t with created := t.created.modify k f }

/-- `client.end()` -/
def endClient (k : ℕ) (cause : Cause) : SSHClientsManager η :=
  { t.update k fun c => { c with ended := true } with ends := t.ends ++ [(k, cause)] }

/-- A promise is settled once. -/
def settle (k : ℕ) (settlement : Settlement) : SSHClientsManager η :=
  t.update k fun c =>
    if c.returnPromise = .pending then { c with returnPromise := settlement } else c

variable [DecidableEq η]

/-- To clean up a hash. An abort may clean up others, each of which is registered, so that the
number of registrations bounds the depth. -/
def cleanupClientWithin : ℕ → Cause → SSHClientsManager η → η → SSHClientsManager η
  | 0, _, t, _ => t
  | n + 1, cause, t, key =>
    match t.clients.get? key with
    | none => t
    | some registration =>
      let c := registration.abortController
      let ended : SSHClientsManager η :=
        { t with clients := t.clients.delete key }.endClient registration.client cause
      if c ∈ t.aborted then ended
      else
        ((t.listeners.filter (·.1 = c)).map Prod.snd).foldl (cleanupClientWithin n (.abort c))
          { ended with aborted := c :: t.aborted }

def cleanupClient (cause : Cause) (key : η) : SSHClientsManager η :=
  cleanupClientWithin t.clients.size cause t key

/-- `abortController.abort()` -/
def abort (c : Controller) : SSHClientsManager η :=
  if c ∈ t.aborted then t
  else
    ((t.listeners.filter (·.1 = c)).map Prod.snd).foldl
      (fun t key => t.cleanupClient (.abort c) key) { t with aborted := c :: t.aborted }

/-- The handler of an event of a client. -/
def cleanupHandler (k : ℕ) : SSHClientsManager η :=
  match t.created[k]? with
  | some c => t.cleanupClient (.event k) c.clientHash
  | none => t

def isStale (idleTimeout : ℕ) (registration : Registration) : Bool :=
  decide (idleTimeout * 1000 < t.now - registration.lastUsed)

def cleanupStaleConnections (idleTimeout : ℕ) : SSHClientsManager η :=
  (t.clients.entries.filter fun e => t.isStale idleTimeout e.2).foldl
    (fun t e => t.cleanupClient (.idle e.2.client) e.1) t

def onShutdown : SSHClientsManager η :=
  t.clients.keys.foldl (fun t key => t.cleanupClient .shutdown key) t

/-- The client for some credentials: the one that is registered, or a new one. -/
def getClient (hash : ConnectConfig → η) (credentials : SSHCredentials)
    (abortController : Option ℕ) (throws : Bool) : SSHClientsManager η × ℕ :=
  let sshConfig := credentials.sshConfig
  let clientHash := hash sshConfig
  match t.clients.get? clientHash with
  | some existing =>
    ({ t with clients := t.clients.set clientHash { existing with lastUsed := t.now } },
      existing.client)
  | none =>
    let k := t.created.length
    let c : Controller := abortController.elim (.own k) .given
    ({ t with
        created := t.created ++
          [⟨sshConfig, clientHash, c, if throws then .rejected else .pending, false, false⟩]
        clients := t.clients.set clientHash ⟨k, t.now, c⟩
        listeners := t.listeners ++ [(c, clientHash)] }, k)

/-- The hash of a client stays with it when it was cleaned up. -/
def updateLastUsed (k : ℕ) : SSHClientsManager η :=
  match t.created[k]? with
  | none => t
  | some c =>
    match t.clients.get? c.clientHash with
    | some registration =>
      { t with clients := t.clients.set c.clientHash { registration with lastUsed := t.now } }
    | none => t

/-- Events happen to clients that were created, in any order. -/
def next (hash : ConnectConfig → η) (idleTimeout : ℕ) :
    Event → Option (SSHClientsManager η)
  | .wait ms => some { t with now := t.now + ms }
  | .getClient credentials abortController throws =>
    some (t.getClient hash credentials abortController throws).1
  | .updateLastUsed k => some (t.updateLastUsed k)
  | .ready k => if k < t.created.length then some (t.settle k .resolved) else none
  | .error k =>
    if k < t.created.length then some ((t.cleanupHandler k).settle k .rejected) else none
  | .ends k => if k < t.created.length then some (t.cleanupHandler k) else none
  | .closes k =>
    if k < t.created.length then
      some ((t.update k fun c => { c with closed := true }).cleanupHandler k)
    else none
  | .abort c => some (t.abort c)
  | .cleanupStaleConnections => some (t.cleanupStaleConnections idleTimeout)
  | .shutdown => some t.onShutdown

end Operations

end SSHClientsManager

def manager (η : Type) [DecidableEq η] (hash : ConnectConfig → η) (idleTimeout : ℕ) :
    Transition.System (SSHClientsManager η) Event where
  init t := t = .initial
  step t e u := t.next hash idleTimeout e = some u

end N8n.SshClients
