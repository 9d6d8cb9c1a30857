import N8n.SshClients.SSHClientsManager

/-!
# What the registry of SSH clients ends

Whatever is registered under a hash is ended by every handler that knows the hash, and an earlier
client for the same configuration has such handlers still. Apart from their events, a client is
ended only for a cause of its own.

## Main definitions

* `Cause.IsOwn`: a cause to end a client is one of its own
* `SSHClientsManager.IsProper`: clients are ended for causes of their own, are registered until
  then, and have their promises settled after that
* `SSHClientsManager.Hit`: a client is ended when a hash is cleaned up
* `SSHClientsManager.Slip`: an event of a client that was replaced, or a client that is ended or
  closed while its promise is pending
* `Cleaned`: a change that ends some clients and does nothing else to them

## Main results

* `cleans_cleanupClientWithin`: to clean up a hash ends the client registered under it, and those
  with the same controller
* `cleanupClientWithin_of_le`: the number of registrations is enough for the depth
* `manager_run`: the registry along runs without a slip
* `not_own`: a socket that closes late, and an abort before a client is ready
-/

namespace N8n.SshClients

open OrderedMap

variable {η : Type}

/-- The causes to end a client for: its own events, its controller, its idleness, and shutdown. -/
def Cause.IsOwn (k : ℕ) (c : SshClient η) : Cause → Prop
  | .event j => j = k
  | .abort controller => controller = c.abortController
  | .idle j => j = k
  | .shutdown => True

namespace SSHClientsManager

variable [DecidableEq η] {hash : ConnectConfig → η} {idleTimeout : ℕ} {t u v : SSHClientsManager η}
  {key : η} {P Q : ℕ → Prop} {clean : Cause → SSHClientsManager η → η → SSHClientsManager η}
  {f : SshClient η → SshClient η} {cause : Cause} {registration : Registration}

/-! ## What is promised -/

/-- Clients are ended for causes of their own, are registered under the hash of their configuration
until then, and are not ended or closed while their promises are pending. -/
structure IsProper (hash : ConnectConfig → η) (t : SSHClientsManager η) : Prop where
  ends : ∀ k cause, (k, cause) ∈ t.ends → ∃ c, t.created[k]? = some c ∧ cause.IsOwn k c
  live : ∀ (k : ℕ) (c : SshClient η), t.created[k]? = some c → c.ended = false →
    ∃ registration, t.clients.get? (hash c.sshConfig) = some registration ∧ registration.client = k
  settled : ∀ (k : ℕ) (c : SshClient η), t.created[k]? = some c → c.ended = true ∨ c.closed = true →
    c.returnPromise ≠ .pending

def RegisteredWith (t : SSHClientsManager η) (controller : Controller) (k : ℕ) : Prop :=
  ∃ key registration, t.clients.get? key = some registration ∧ registration.client = k ∧
    registration.abortController = controller

/-- The clients that end when a hash is cleaned up. -/
def Hit (t : SSHClientsManager η) (key : η) (k : ℕ) : Prop :=
  ∃ registration, t.clients.get? key = some registration ∧
    (k = registration.client ∨ registration.abortController ∉ t.aborted ∧
      t.RegisteredWith registration.abortController k)

/-- The promise for a client is not settled yet. -/
def IsPending (t : SSHClientsManager η) (k : ℕ) : Prop :=
  ∃ c, t.created[k]? = some c ∧ c.returnPromise = .pending

def IsReplaced (t : SSHClientsManager η) (k : ℕ) : Prop :=
  ∃ c registration, t.created[k]? = some c ∧ t.clients.get? c.clientHash = some registration ∧
    registration.client ≠ k

def HitBy (t : SSHClientsManager η) (k j : ℕ) : Prop :=
  ∃ c, t.created[k]? = some c ∧ t.Hit c.clientHash j

/-- An event of a client that was replaced, or a client that is ended or closed while its promise is
pending. An error rejects the promise of its own client. -/
def Slip (idleTimeout : ℕ) (t : SSHClientsManager η) : Event → Prop
  | .error k => t.IsReplaced k ∨ ∃ j, j ≠ k ∧ t.IsPending j ∧ t.HitBy k j
  | .ends k => t.IsReplaced k ∨ ∃ j, t.IsPending j ∧ t.HitBy k j
  | .closes k => t.IsReplaced k ∨ t.IsPending k ∨ ∃ j, t.IsPending j ∧ t.HitBy k j
  | .abort controller =>
    controller ∉ t.aborted ∧ ∃ j, t.IsPending j ∧ t.RegisteredWith controller j
  | .cleanupStaleConnections =>
    ∃ e ∈ t.clients.entries, t.isStale idleTimeout e.2 = true ∧ ∃ j, t.IsPending j ∧ t.Hit e.1 j
  | .shutdown => ∃ key j, t.IsPending j ∧ t.Hit key j
  | .wait _ | .getClient _ _ _ | .updateLastUsed _ | .ready _ => False

/-! ## The invariant -/

/-- What is registered is not ended, and is known to the handlers of signals that may still fire. -/
structure Sound (hash : ConnectConfig → η) (t : SSHClientsManager η) : Prop where
  hashed : ∀ (k : ℕ) (c : SshClient η), t.created[k]? = some c → c.clientHash = hash c.sshConfig
  registered : ∀ key registration, t.clients.get? key = some registration →
    ∃ c, t.created[registration.client]? = some c ∧ c.clientHash = key ∧ c.ended = false ∧
      c.abortController = registration.abortController
  live : ∀ (k : ℕ) (c : SshClient η), t.created[k]? = some c → c.ended = false →
    ∃ registration, t.clients.get? c.clientHash = some registration ∧ registration.client = k
  listeners : ∀ controller key, (controller, key) ∈ t.listeners → controller ∉ t.aborted →
    ∃ registration, t.clients.get? key = some registration ∧
      registration.abortController = controller
  ends : ∀ k cause, (k, cause) ∈ t.ends → ∃ c, t.created[k]? = some c ∧ cause.IsOwn k c

def Settled (t : SSHClientsManager η) : Prop :=
  ∀ (k : ℕ) (c : SshClient η), t.created[k]? = some c → c.ended = true ∨ c.closed = true →
    c.returnPromise ≠ .pending

omit [DecidableEq η] in
theorem getElem?_update {k j : ℕ} :
    (t.update k f).created[j]? = if j = k then t.created[j]?.map f else t.created[j]? := by
  show (t.created.modify k f)[j]? = _
  rw [List.getElem?_modify]
  by_cases h : j = k
  · rw [if_pos h]
    cases t.created[j]? with
    | none => rfl
    | some c => simp [h]
  · rw [if_neg h]
    cases t.created[j]? with
    | none => rfl
    | some c => simp [Ne.symm h]

/-! ## Changes that end clients -/

/-- A change that ends clients with a property, and takes registrations away. -/
structure Cleaned (P : ℕ → Prop) (t u : SSHClientsManager η) : Prop where
  created : ∀ j, ∃ ended : Bool, (ended = true → P j) ∧
    u.created[j]? = t.created[j]?.map fun c => { c with ended := c.ended || ended }
  clients : ∀ key registration, u.clients.get? key = some registration →
    t.clients.get? key = some registration
  aborted : ∀ controller ∈ t.aborted, controller ∈ u.aborted

theorem Cleaned.refl (P : ℕ → Prop) (t : SSHClientsManager η) : Cleaned P t t where
  created j := by
    refine ⟨false, nofun, ?_⟩
    cases t.created[j]? with
    | none => rfl
    | some c => simp
  clients _ _ := id
  aborted _ := id

theorem Cleaned.mono (h : Cleaned P t u) (hPQ : ∀ j, P j → Q j) : Cleaned Q t u where
  created j := by
    obtain ⟨ended, hended, hu⟩ := h.created j
    exact ⟨ended, fun he => hPQ j (hended he), hu⟩
  clients := h.clients
  aborted := h.aborted

theorem Cleaned.trans (h : Cleaned P t u) (k : Cleaned P u v) : Cleaned P t v where
  created j := by
    obtain ⟨e, he, hu⟩ := h.created j
    obtain ⟨f, hf, hv⟩ := k.created j
    refine ⟨e || f, fun hor => (Bool.or_eq_true_iff.mp hor).elim he hf, ?_⟩
    rw [hv, hu, Option.map_map]
    congr 1
    funext c
    simp [Bool.or_assoc]
  clients key registration hv := h.clients key registration (k.clients key registration hv)
  aborted controller hc := k.aborted controller (h.aborted controller hc)

/-- What is true of a client apart from its end is true of it before. -/
theorem Cleaned.exists_created (h : Cleaned P t u) {j : ℕ} {c : SshClient η}
    (hc : u.created[j]? = some c) : ∃ b, t.created[j]? = some b ∧
      c.sshConfig = b.sshConfig ∧ c.clientHash = b.clientHash ∧
      c.abortController = b.abortController ∧ c.returnPromise = b.returnPromise ∧
      c.closed = b.closed ∧ (c.ended = true → b.ended = true ∨ P j) := by
  obtain ⟨e, he, hu⟩ := h.created j
  rw [hc] at hu
  obtain ⟨b, hb, rfl⟩ := Option.map_eq_some_iff.mp hu.symm
  refine ⟨b, hb, rfl, rfl, rfl, rfl, rfl, fun hended => ?_⟩
  exact (Bool.or_eq_true_iff.mp hended).imp_right he

theorem Cleaned.created_of (h : Cleaned P t u) {j : ℕ} {b : SshClient η}
    (hb : t.created[j]? = some b) : ∃ c, u.created[j]? = some c ∧
      c.abortController = b.abortController := by
  obtain ⟨e, -, hu⟩ := h.created j
  rw [hb] at hu
  exact ⟨_, hu, rfl⟩

theorem Cleaned.hit (h : Cleaned P t u) {j : ℕ} (hj : u.Hit key j) : t.Hit key j := by
  obtain ⟨registration, hreg, hj⟩ := hj
  refine ⟨registration, h.clients _ _ hreg, hj.imp_right ?_⟩
  rintro ⟨hnot, key', registration', hreg', hclient, hcontroller⟩
  exact ⟨fun hc => hnot (h.aborted _ hc), key', registration', h.clients _ _ hreg', hclient,
    hcontroller⟩

/-- The promises of the clients that end have to be settled. -/
theorem Settled.cleaned (h : t.Settled) (hclean : Cleaned P t u)
    (hP : ∀ j, P j → ¬ t.IsPending j) : u.Settled := by
  intro j c hc hor hpending
  obtain ⟨b, hb, -, -, -, hpromise, hclosed, hended⟩ := hclean.exists_created hc
  rw [hpromise] at hpending
  obtain he | hcl := hor
  · obtain he | hPj := hended he
    · exact h j b hb (.inl he) hpending
    · exact hP j hPj ⟨b, hb, hpending⟩
  · exact h j b hb (.inr (hclosed ▸ hcl)) hpending

/-! ## To clean up a hash -/

/-- Whatever is registered under a hash is ended for a cause of its own. -/
def Owns (t : SSHClientsManager η) (cause : Cause) (key : η) : Prop :=
  ∀ registration c, t.clients.get? key = some registration →
    t.created[registration.client]? = some c → cause.IsOwn registration.client c

/-- The client that is registered under a hash is ended, and its controller aborted. -/
theorem Sound.removed (h : t.Sound hash) {aborted : List Controller}
    (hreg : t.clients.get? key = some registration) (hown : t.Owns cause key)
    (hsub : ∀ controller ∈ t.aborted, controller ∈ aborted)
    (hmem : registration.abortController ∈ aborted) : let removed : SSHClientsManager η :=
      { { t with clients := t.clients.delete key }.endClient registration.client cause with
        aborted := aborted }
    removed.Sound hash ∧ Cleaned (· = registration.client) t removed := by
  intro removed
  have hcreated : ∀ j, removed.created[j]? = if j = registration.client
      then t.created[j]?.map fun c => { c with ended := true } else t.created[j]? :=
    fun j => getElem?_update
  have hclients : ∀ key', removed.clients.get? key' =
      if key' = key then none else t.clients.get? key' := fun key' => get?_delete
  obtain ⟨c, hc, hkey, hended, hcontroller⟩ := h.registered key registration hreg
  have hcleaned : Cleaned (· = registration.client) t removed := by
    refine ⟨fun j => ⟨decide (j = registration.client), of_decide_eq_true, ?_⟩,
      fun key' reg' hreg' => ?_, hsub⟩
    · rw [hcreated]
      split_ifs with hj
      · simp [hj]
      · cases t.created[j]? with
        | none => rfl
        | some c => simp [hj]
    · rw [hclients] at hreg'
      split_ifs at hreg'
      exact hreg'
  refine ⟨⟨fun j b hb => ?_, fun key' reg' hreg' => ?_, fun j b hb hlive => ?_,
    fun controller key' hl hnot => ?_, fun j cause' hends => ?_⟩, hcleaned⟩
  · obtain ⟨b', hb', hconfig, hhash, -⟩ := hcleaned.exists_created hb
    rw [hconfig, hhash]
    exact h.hashed j b' hb'
  · rw [hclients] at hreg'
    split_ifs at hreg' with hkey'
    obtain ⟨b, hb, hbkey, hbended, hbcontroller⟩ := h.registered key' reg' hreg'
    refine ⟨b, ?_, hbkey, hbended, hbcontroller⟩
    -- one client has one hash
    have hne : reg'.client ≠ registration.client := by
      intro heq
      rw [heq, hc] at hb
      exact hkey' (hbkey ▸ Option.some.inj hb ▸ hkey)
    rw [hcreated, if_neg hne, hb]
  · rw [hcreated] at hb
    split_ifs at hb with hj
    · obtain ⟨b', -, rfl⟩ := Option.map_eq_some_iff.mp hb
      cases hlive
    · obtain ⟨reg', hreg', hclient⟩ := h.live j b hb hlive
      refine ⟨reg', ?_, hclient⟩
      rw [hclients, if_neg, hreg']
      intro heq
      rw [heq, hreg] at hreg'
      exact hj (hclient ▸ Option.some.inj hreg' ▸ rfl)
  · obtain ⟨reg', hreg', hcontroller'⟩ :=
      h.listeners controller key' hl fun hin => hnot (hsub _ hin)
    refine ⟨reg', ?_, hcontroller'⟩
    rw [hclients, if_neg, hreg']
    intro heq
    rw [heq, hreg] at hreg'
    exact hnot (hcontroller' ▸ Option.some.inj hreg' ▸ hmem)
  · obtain hold | hnew := List.mem_append.mp hends
    · obtain ⟨b, hb, hisOwn⟩ := h.ends j cause' hold
      obtain ⟨b', hb', hcontroller'⟩ := hcleaned.created_of hb
      refine ⟨b', hb', ?_⟩
      cases cause' with
      | abort a => exact Eq.trans hisOwn hcontroller'.symm
      | event | idle | shutdown => exact hisOwn
    · obtain ⟨rfl, rfl⟩ := Prod.mk.inj (List.mem_singleton.mp hnew)
      refine ⟨{ c with ended := true }, ?_, ?_⟩
      · rw [hcreated, if_pos rfl, hc]
        rfl
      · have hisOwn := hown registration c hreg hc
        cases cause' with
        | abort a => exact hisOwn
        | event | idle | shutdown => exact hisOwn

theorem Cleaned.owns (h : Cleaned P t u) (hown : t.Owns cause key) : u.Owns cause key := by
  intro registration c hreg hc
  obtain ⟨b, hb, -, -, hcontroller, -⟩ := h.exists_created hc
  have hisOwn := hown registration b (h.clients _ _ hreg) hb
  cases cause with
  | abort a => exact Eq.trans hisOwn hcontroller.symm
  | event | idle | shutdown => exact hisOwn

def Cleans (hash : ConnectConfig → η)
    (clean : Cause → SSHClientsManager η → η → SSHClientsManager η) : Prop :=
  ∀ cause t key, t.Sound hash → t.Owns cause key →
    (clean cause t key).Sound hash ∧ Cleaned (t.Hit key) t (clean cause t key)

/-- To clean up hashes one after the other. -/
theorem Cleans.fold (hclean : Cleans hash clean) (l : List (Cause × η)) (h : t.Sound hash)
    (hown : ∀ e ∈ l, t.Owns e.1 e.2) :
    (l.foldl (fun t e => clean e.1 t e.2) t).Sound hash ∧
      Cleaned (fun j => ∃ e ∈ l, t.Hit e.2 j) t (l.foldl (fun t e => clean e.1 t e.2) t) := by
  induction l generalizing t with
  | nil => exact ⟨h, .refl _ t⟩
  | cons e l ih =>
    obtain ⟨hsound, hcleaned⟩ := hclean e.1 t e.2 h (hown e List.mem_cons_self)
    obtain ⟨hsound', hcleaned'⟩ :=
      ih hsound fun f hf => hcleaned.owns (hown f (List.mem_cons_of_mem e hf))
    refine ⟨hsound', (hcleaned.mono fun j hj => ⟨e, List.mem_cons_self, hj⟩).trans ?_⟩
    refine hcleaned'.mono ?_
    rintro j ⟨f, hf, hj⟩
    exact ⟨f, List.mem_cons_of_mem e hf, hcleaned.hit hj⟩

/-- What the handlers of a signal clean up, once it has fired: the clients that were registered with
the controller. -/
theorem Cleans.listeners (hclean : Cleans hash clean) (h : t.Sound hash) {controller : Controller}
    (hnot : controller ∉ t.aborted) (hv : v.Sound hash) (hmem : controller ∈ v.aborted)
    (hcleaned : Cleaned P t v) (hP : ∀ j, t.RegisteredWith controller j → P j) :
    let u := ((t.listeners.filter (·.1 = controller)).map Prod.snd).foldl
      (clean (.abort controller)) v
    u.Sound hash ∧ Cleaned P t u := by
  intro u
  -- the handlers fire for clients with the controller only, and it is not aborted again
  have hlistener : ∀ key' registration,
      key' ∈ (t.listeners.filter (·.1 = controller)).map Prod.snd →
      v.clients.get? key' = some registration →
      t.clients.get? key' = some registration ∧ registration.abortController = controller := by
    intro key' registration hkey hreg
    obtain ⟨⟨c, key''⟩, hfilter, rfl⟩ := List.mem_map.mp hkey
    obtain ⟨hlistener, hc⟩ := List.mem_filter.mp hfilter
    obtain rfl := of_decide_eq_true hc
    obtain ⟨registration', hreg', hcontroller⟩ := h.listeners c key'' hlistener hnot
    have hold := hcleaned.clients _ _ hreg
    obtain rfl := Option.some.inj (hreg'.symm.trans hold)
    exact ⟨hold, hcontroller⟩
  obtain ⟨hsound, hfold⟩ := hclean.fold
    (((t.listeners.filter (·.1 = controller)).map Prod.snd).map (Prod.mk (.abort controller))) hv
    (by
      intro e he registration c hreg hc
      obtain ⟨key', hkey', rfl⟩ := List.mem_map.mp he
      obtain ⟨-, hcontroller⟩ := hlistener key' registration hkey' hreg
      obtain ⟨c', hc', -, -, hcontroller'⟩ := hv.registered key' registration hreg
      obtain rfl := Option.some.inj (hc'.symm.trans hc)
      exact (hcontroller'.trans hcontroller).symm)
  rw [List.foldl_map] at hsound hfold
  refine ⟨hsound, hcleaned.trans (hfold.mono ?_)⟩
  rintro j ⟨e, he, registration, hreg, hj⟩
  obtain ⟨key', hkey', rfl⟩ := List.mem_map.mp he
  obtain ⟨hold, hcontroller⟩ := hlistener key' registration hkey' hreg
  obtain rfl | ⟨hnot', -⟩ := hj
  · exact hP _ ⟨key', registration, hold, rfl, hcontroller⟩
  · exact absurd (hcontroller ▸ hmem) hnot'

/-- **To clean up a hash** ends the client that is registered under it, and those that are
registered with the same controller, unless it was aborted before. -/
theorem cleans_cleanupClientWithin (n : ℕ) :
    Cleans hash (cleanupClientWithin (η := η) n) := by
  induction n with
  | zero => exact fun cause t key h _ => ⟨h, .refl _ t⟩
  | succ n ih =>
    intro cause t key h hown
    rw [cleanupClientWithin]
    cases hreg : t.clients.get? key with
    | none => exact ⟨h, .refl _ t⟩
    | some registration =>
      dsimp only
      split_ifs with hc
      · obtain ⟨hsound, hcleaned⟩ := h.removed hreg hown (fun _ => id) hc
        exact ⟨hsound, hcleaned.mono fun j hj => ⟨registration, hreg, .inl hj⟩⟩
      · obtain ⟨hsound, hcleaned⟩ := h.removed hreg hown
          (fun _ => List.mem_cons_of_mem registration.abortController) List.mem_cons_self
        exact ih.listeners h hc hsound List.mem_cons_self
          (hcleaned.mono fun j hj => ⟨registration, hreg, .inl hj⟩)
          fun j hj => ⟨registration, hreg, .inr ⟨hc, hj⟩⟩

theorem cleans_cleanupClient : Cleans hash fun cause t key => t.cleanupClient cause key :=
  fun cause t key => cleans_cleanupClientWithin t.clients.size cause t key

section Depth

theorem size_cleanupClientWithin_le (n : ℕ) (cause : Cause) (t : SSHClientsManager η) (key : η) :
    (cleanupClientWithin n cause t key).clients.size ≤ t.clients.size := by
  induction n generalizing cause t key with
  | zero => exact le_rfl
  | succ n ih =>
    rw [cleanupClientWithin]
    cases hreg : t.clients.get? key with
    | none => exact le_rfl
    | some registration =>
      have hfold : ∀ (keys : List η) (v : SSHClientsManager η),
          (keys.foldl (cleanupClientWithin n (.abort registration.abortController)) v).clients.size
            ≤ v.clients.size := by
        intro keys
        induction keys with
        | nil => exact fun v => le_rfl
        | cons key' keys ihk => exact fun v => (ihk _).trans (ih _ v key')
      have hdelete := size_delete_le t.clients key
      dsimp only
      split_ifs
      · exact hdelete
      · exact (hfold _ _).trans hdelete

end Depth

/-! ## The steps -/

theorem Sound.initial : (initial : SSHClientsManager η).Sound hash :=
  ⟨nofun, nofun, nofun, nofun, nofun⟩

omit [DecidableEq η] in
theorem Settled.initial : (initial : SSHClientsManager η).Settled := nofun

/-- A change of clients that is not about their registration. -/
theorem Sound.update (h : t.Sound hash) (k : ℕ)
    (hf : ∀ c, (f c).sshConfig = c.sshConfig ∧ (f c).clientHash = c.clientHash ∧
      (f c).abortController = c.abortController ∧ (f c).ended = c.ended) :
    (t.update k f).Sound hash := by
  have hback : ∀ {j : ℕ} {c : SshClient η}, (t.update k f).created[j]? = some c →
      ∃ b, t.created[j]? = some b ∧ (c = f b ∨ c = b) := by
    intro j c hc
    rw [getElem?_update] at hc
    split_ifs at hc
    · obtain ⟨b, hb, rfl⟩ := Option.map_eq_some_iff.mp hc
      exact ⟨b, hb, .inl rfl⟩
    · exact ⟨c, hc, .inr rfl⟩
  have hforth : ∀ {j : ℕ} {b : SshClient η}, t.created[j]? = some b →
      ∃ c, (t.update k f).created[j]? = some c ∧ c.clientHash = b.clientHash ∧
        c.abortController = b.abortController ∧ c.ended = b.ended := by
    intro j b hb
    rw [getElem?_update, hb]
    split_ifs
    · exact ⟨f b, rfl, (hf b).2.1, (hf b).2.2⟩
    · exact ⟨b, rfl, rfl, rfl, rfl⟩
  refine ⟨fun j c hc => ?_, fun key registration hreg => ?_, fun j c hc hlive => ?_, h.listeners,
    fun j cause hends => ?_⟩
  · obtain ⟨b, hb, rfl | rfl⟩ := hback hc
    · rw [(hf b).1, (hf b).2.1]
      exact h.hashed j b hb
    · exact h.hashed j c hb
  · obtain ⟨b, hb, hkey, hended, hcontroller⟩ := h.registered key registration hreg
    obtain ⟨c, hc, hhash, hcontroller', hended'⟩ := hforth hb
    exact ⟨c, hc, hhash.trans hkey, hended'.trans hended, hcontroller'.trans hcontroller⟩
  · obtain ⟨b, hb, rfl | rfl⟩ := hback hc
    · rw [(hf b).2.1]
      exact h.live j b hb ((hf b).2.2.2 ▸ hlive)
    · exact h.live j c hb hlive
  · obtain ⟨b, hb, hown⟩ := h.ends j cause hends
    obtain ⟨c, hc, -, hcontroller, -⟩ := hforth hb
    refine ⟨c, hc, ?_⟩
    cases cause with
    | abort a => exact Eq.trans hown hcontroller.symm
    | event | idle | shutdown => exact hown

theorem Sound.settle (h : t.Sound hash) (k : ℕ) (settlement : Settlement) :
    (t.settle k settlement).Sound hash := by
  refine h.update k fun c => ?_
  split_ifs <;> exact ⟨rfl, rfl, rfl, rfl⟩

omit [DecidableEq η] in
theorem Settled.settle (h : t.Settled) (k : ℕ) {settlement : Settlement}
    (hs : settlement ≠ .pending) : (t.settle k settlement).Settled := by
  intro j c hc hor
  rw [SSHClientsManager.settle, getElem?_update] at hc
  split_ifs at hc
  · obtain ⟨b, hb, rfl⟩ := Option.map_eq_some_iff.mp hc
    split_ifs with hpending
    · exact hs
    · exact hpending
  · exact h j c hc hor

theorem Sound.used (h : t.Sound hash) {lastUsed : ℕ}
    (hreg : t.clients.get? key = some registration) :
    Sound hash
      { t with clients := t.clients.set key { registration with lastUsed := lastUsed } } := by
  have hback : ∀ key' reg',
      (t.clients.set key { registration with lastUsed := lastUsed }).get? key' = some reg' → ∃ reg, t.clients.get? key' = some reg ∧ reg'.client = reg.client ∧
        reg'.abortController = reg.abortController := by
    intro key' reg' hreg'
    rw [get?_set] at hreg'
    split_ifs at hreg' with hkey
    · cases hreg'
      exact ⟨registration, hkey ▸ hreg, rfl, rfl⟩
    · exact ⟨reg', hreg', rfl, rfl⟩
  have hforth : ∀ key' reg, t.clients.get? key' = some reg →
      ∃ reg', (t.clients.set key { registration with lastUsed := lastUsed }).get? key' = some reg' ∧
        reg'.client = reg.client ∧ reg'.abortController = reg.abortController := by
    intro key' reg hreg'
    rw [get?_set]
    split_ifs with hkey
    · rw [hkey, hreg] at hreg'
      cases hreg'
      exact ⟨_, rfl, rfl, rfl⟩
    · exact ⟨reg, hreg', rfl, rfl⟩
  refine ⟨h.hashed, fun key' reg' hreg' => ?_, fun k c hc hlive => ?_,
    fun controller key' hl hnot => ?_, h.ends⟩
  · obtain ⟨reg, hreg, hclient, hcontroller⟩ := hback key' reg' hreg'
    rw [hclient, hcontroller]
    exact h.registered key' reg hreg
  · obtain ⟨reg, hreg, hclient⟩ := h.live k c hc hlive
    obtain ⟨reg', hreg', hclient', -⟩ := hforth _ reg hreg
    exact ⟨reg', hreg', hclient'.trans hclient⟩
  · obtain ⟨reg, hreg, hcontroller⟩ := h.listeners controller key' hl hnot
    obtain ⟨reg', hreg', -, hcontroller'⟩ := hforth key' reg hreg
    exact ⟨reg', hreg', hcontroller'.trans hcontroller⟩

theorem Sound.updateLastUsed (h : t.Sound hash) (k : ℕ) : (t.updateLastUsed k).Sound hash := by
  unfold SSHClientsManager.updateLastUsed
  split
  · exact h
  · split
    · next hreg => exact h.used hreg
    · exact h

theorem created_updateLastUsed (t : SSHClientsManager η) (k : ℕ) :
    (t.updateLastUsed k).created = t.created := by
  unfold SSHClientsManager.updateLastUsed
  split
  · rfl
  · split <;> rfl

/-- A new client is registered under the hash of its configuration. -/
theorem Sound.getClient (h : t.Sound hash) (credentials : SSHCredentials)
    (abortController : Option ℕ) (throws : Bool) :
    (t.getClient hash credentials abortController throws).1.Sound hash := by
  unfold SSHClientsManager.getClient
  dsimp only
  split
  · next hreg => exact h.used hreg
  · next hfree =>
    -- the new client is the last one, and everything else is about earlier ones
    have hlt : ∀ {k : ℕ} {c : SshClient η}, t.created[k]? = some c → k < t.created.length :=
      fun hc => (List.getElem?_eq_some_iff.mp hc).1
    have hold : ∀ {k : ℕ} {c : SshClient η} (b : SshClient η), t.created[k]? = some c →
        (t.created ++ [b])[k]? = some c := by
      intro k c b hc
      rw [List.getElem?_append_left (hlt hc)]
      exact hc
    have hback : ∀ {k : ℕ} {c b : SshClient η}, (t.created ++ [b])[k]? = some c →
        t.created[k]? = some c ∨ k = t.created.length ∧ c = b := by
      intro k c b hc
      obtain hk | hk := Nat.lt_or_ge k t.created.length
      · rw [List.getElem?_append_left hk] at hc
        exact .inl hc
      · rw [List.getElem?_append_right hk] at hc
        obtain ⟨hi, hc⟩ := List.getElem?_eq_some_iff.mp hc
        have hzero : k - t.created.length = 0 := Nat.lt_one_iff.mp hi
        exact .inr ⟨Nat.le_antisymm (Nat.sub_eq_zero_iff_le.mp hzero) hk, by simpa using hc.symm⟩
    have hother : ∀ {key' : η} {registration : Registration},
        t.clients.get? key' = some registration → key' ≠ hash credentials.sshConfig := by
      rintro key' registration hreg rfl
      rw [hfree] at hreg
      cases hreg
    refine ⟨fun k c hc => ?_, fun key' registration hreg => ?_, fun k c hc hlive => ?_,
      fun controller key' hl hnot => ?_, fun k cause hends => ?_⟩
    · obtain hc | ⟨-, rfl⟩ := hback hc
      · exact h.hashed k c hc
      · rfl
    · rw [get?_set] at hreg
      split_ifs at hreg with hkey
      · cases hreg
        exact ⟨_, List.getElem?_concat_length, hkey.symm, rfl, rfl⟩
      · obtain ⟨c, hc, hrest⟩ := h.registered key' registration hreg
        exact ⟨c, hold _ hc, hrest⟩
    · obtain hc | ⟨rfl, rfl⟩ := hback hc
      · obtain ⟨registration, hreg, hclient⟩ := h.live k c hc hlive
        refine ⟨registration, ?_, hclient⟩
        rw [get?_set_of_ne (hother hreg)]
        exact hreg
      · exact ⟨_, get?_set_self, rfl⟩
    · obtain hl | hl := List.mem_append.mp hl
      · obtain ⟨registration, hreg, hcontroller⟩ := h.listeners controller key' hl hnot
        refine ⟨registration, ?_, hcontroller⟩
        rw [get?_set_of_ne (hother hreg)]
        exact hreg
      · obtain ⟨rfl, rfl⟩ := Prod.mk.inj (List.mem_singleton.mp hl)
        exact ⟨_, get?_set_self, rfl⟩
    · obtain ⟨c, hc, hown⟩ := h.ends k cause hends
      exact ⟨c, hold _ hc, hown⟩

theorem Settled.getClient (h : t.Settled) (credentials : SSHCredentials)
    (abortController : Option ℕ) (throws : Bool) :
    (t.getClient hash credentials abortController throws).1.Settled := by
  unfold SSHClientsManager.getClient
  dsimp only
  split
  · exact h
  · intro k c hc hor
    obtain hk | hk := Nat.lt_or_ge k t.created.length
    · rw [List.getElem?_append_left hk] at hc
      exact h k c hc hor
    · rw [List.getElem?_append_right hk] at hc
      obtain ⟨hi, rfl⟩ := List.getElem?_eq_some_iff.mp hc
      simp at hor

/-- An event of a client that was not replaced. -/
theorem Sound.cleanupHandler (h : t.Sound hash) {k : ℕ} (hnot : ¬ t.IsReplaced k) :
    (t.cleanupHandler k).Sound hash ∧ Cleaned (t.HitBy k) t (t.cleanupHandler k) := by
  unfold SSHClientsManager.cleanupHandler
  cases hc : t.created[k]? with
  | none => exact ⟨h, .refl _ t⟩
  | some c =>
    have hown : t.Owns (.event k) c.clientHash := by
      intro registration b hreg hb
      by_contra hne
      exact hnot ⟨c, registration, hc, hreg, Ne.symm hne⟩
    obtain ⟨hsound, hcleaned⟩ := cleans_cleanupClient (.event k) t c.clientHash h hown
    exact ⟨hsound, hcleaned.mono fun j hj => ⟨c, hc, hj⟩⟩

theorem Sound.abort (h : t.Sound hash) (controller : Controller) :
    (t.abort controller).Sound hash ∧
      Cleaned (fun j => controller ∉ t.aborted ∧ t.RegisteredWith controller j) t
        (t.abort controller) := by
  unfold SSHClientsManager.abort
  split_ifs with hc
  · exact ⟨h, .refl _ t⟩
  · have hsound : Sound hash { t with aborted := controller :: t.aborted } :=
      ⟨h.hashed, h.registered, h.live,
        fun a key hl hnot => h.listeners a key hl fun hin => hnot (List.mem_cons_of_mem _ hin),
        h.ends⟩
    exact cleans_cleanupClient.listeners h hc hsound List.mem_cons_self
      ⟨(Cleaned.refl _ t).created, fun _ _ => id, fun _ => List.mem_cons_of_mem _⟩
      fun j hj => ⟨hc, hj⟩

theorem Sound.cleanupStaleConnections (h : t.Sound hash) (idleTimeout : ℕ) :
    (t.cleanupStaleConnections idleTimeout).Sound hash ∧
      Cleaned (fun j => ∃ e ∈ t.clients.entries, t.isStale idleTimeout e.2 = true ∧ t.Hit e.1 j) t
        (t.cleanupStaleConnections idleTimeout) := by
  obtain ⟨hsound, hcleaned⟩ := cleans_cleanupClient.fold
    ((t.clients.entries.filter fun e => t.isStale idleTimeout e.2).map fun e =>
      (.idle e.2.client, e.1)) h
    (by
      intro f hf registration c hreg hc
      obtain ⟨e, he, rfl⟩ := List.mem_map.mp hf
      have hentry := get?_eq_some.mpr (List.mem_filter.mp he).1
      obtain rfl := Option.some.inj (hentry.symm.trans hreg)
      rfl)
  rw [List.foldl_map] at hsound hcleaned
  refine ⟨hsound, hcleaned.mono ?_⟩
  rintro j ⟨f, hf, hj⟩
  obtain ⟨e, he, rfl⟩ := List.mem_map.mp hf
  obtain ⟨hmem, hstale⟩ := List.mem_filter.mp he
  exact ⟨e, hmem, hstale, hj⟩

theorem Sound.onShutdown (h : t.Sound hash) :
    t.onShutdown.Sound hash ∧ Cleaned (fun j => ∃ key, t.Hit key j) t t.onShutdown := by
  obtain ⟨hsound, hcleaned⟩ := cleans_cleanupClient.fold (t.clients.keys.map (Prod.mk .shutdown)) h
    (by
      intro f hf registration c hreg hc
      obtain ⟨key, -, rfl⟩ := List.mem_map.mp hf
      trivial)
  rw [List.foldl_map] at hsound hcleaned
  refine ⟨hsound, hcleaned.mono ?_⟩
  rintro j ⟨f, hf, hj⟩
  obtain ⟨key, -, rfl⟩ := List.mem_map.mp hf
  exact ⟨key, hj⟩

theorem Sound.next (h : t.Sound hash) (hsettled : t.Settled) {e : Event}
    (hs : t.next hash idleTimeout e = some u) (hslip : ¬ t.Slip idleTimeout e) :
    u.Sound hash ∧ u.Settled := by
  cases e with
  | wait ms =>
    cases hs
    exact ⟨⟨h.hashed, h.registered, h.live, h.listeners, h.ends⟩, hsettled⟩
  | getClient credentials abortController throws =>
    cases hs
    exact ⟨h.getClient credentials abortController throws,
      hsettled.getClient credentials abortController throws⟩
  | updateLastUsed k =>
    cases hs
    refine ⟨h.updateLastUsed k, ?_⟩
    unfold Settled
    rw [created_updateLastUsed]
    exact hsettled
  | ready k =>
    rw [SSHClientsManager.next] at hs
    split_ifs at hs
    cases hs
    exact ⟨h.settle k .resolved, hsettled.settle k nofun⟩
  | error k =>
    rw [SSHClientsManager.next] at hs
    split_ifs at hs
    cases hs
    obtain ⟨hsound, hcleaned⟩ := h.cleanupHandler fun hr => hslip (.inl hr)
    refine ⟨hsound.settle k .rejected, fun j c hc hor hpending => ?_⟩
    rw [SSHClientsManager.settle, getElem?_update] at hc
    split_ifs at hc with hj
    · obtain ⟨b, -, rfl⟩ := Option.map_eq_some_iff.mp hc
      by_cases hb : b.returnPromise = .pending
      · rw [if_pos hb] at hpending
        cases hpending
      · rw [if_neg hb] at hpending
        exact hb hpending
    · obtain ⟨b, hb, -, -, -, hpromise, hclosed, hended⟩ := hcleaned.exists_created hc
      rw [hpromise] at hpending
      obtain he | hcl := hor
      · obtain he | hhit := hended he
        · exact hsettled j b hb (.inl he) hpending
        · exact hslip (.inr ⟨j, hj, ⟨b, hb, hpending⟩, hhit⟩)
      · exact hsettled j b hb (.inr (hclosed ▸ hcl)) hpending
  | ends k =>
    rw [SSHClientsManager.next] at hs
    split_ifs at hs
    cases hs
    obtain ⟨hsound, hcleaned⟩ := h.cleanupHandler fun hr => hslip (.inl hr)
    exact ⟨hsound, hsettled.cleaned hcleaned fun j hj hp => hslip (.inr ⟨j, hp, hj⟩)⟩
  | closes k =>
    rw [SSHClientsManager.next] at hs
    split_ifs at hs
    cases hs
    have hclosed : ∀ j c, (t.update k fun c => { c with closed := true }).created[j]? = some c →
        ∃ b, t.created[j]? = some b ∧ c.clientHash = b.clientHash ∧
          c.returnPromise = b.returnPromise ∧ (c.ended = true → b.ended = true) ∧
          (c.closed = true → b.closed = true ∨ j = k) := by
      intro j c hc
      rw [getElem?_update] at hc
      split_ifs at hc with hj
      · obtain ⟨b, hb, rfl⟩ := Option.map_eq_some_iff.mp hc
        exact ⟨b, hb, rfl, rfl, id, fun _ => .inr hj⟩
      · exact ⟨c, hc, rfl, rfl, id, .inl⟩
    have hupdated := h.update k fun c : SshClient η =>
      show ({ c with closed := true } : SshClient η).sshConfig = c.sshConfig ∧ _ from
        ⟨rfl, rfl, rfl, rfl⟩
    have hold : Settled (t.update k fun c => { c with closed := true }) := by
      intro j c hc hor hpending
      obtain ⟨b, hb, -, hpromise, hended, hclosed⟩ := hclosed j c hc
      rw [hpromise] at hpending
      obtain he | hcl := hor
      · exact hsettled j b hb (.inl (hended he)) hpending
      · obtain hcl | rfl := hclosed hcl
        · exact hsettled j b hb (.inr hcl) hpending
        · exact hslip (.inr (.inl ⟨b, hb, hpending⟩))
    obtain ⟨hsound, hcleaned⟩ := hupdated.cleanupHandler (by
      rintro ⟨c, registration, hc, hreg, hne⟩
      obtain ⟨b, hb, hhash, -⟩ := hclosed k c hc
      exact hslip (.inl ⟨b, registration, hb, hhash ▸ hreg, hne⟩))
    refine ⟨hsound, hold.cleaned hcleaned ?_⟩
    rintro j ⟨c, hc, hhit⟩ ⟨b, hb, hpending⟩
    obtain ⟨c', hc', hhash, -⟩ := hclosed k c hc
    obtain ⟨b', hb', -, hpromise, -⟩ := hclosed j b hb
    exact hslip (.inr (.inr ⟨j, ⟨b', hb', hpromise ▸ hpending⟩, c', hc', hhash ▸ hhit⟩))
  | abort controller =>
    cases hs
    obtain ⟨hsound, hcleaned⟩ := h.abort controller
    exact ⟨hsound, hsettled.cleaned hcleaned fun j hj hp => hslip ⟨hj.1, j, hp, hj.2⟩⟩
  | cleanupStaleConnections =>
    cases hs
    obtain ⟨hsound, hcleaned⟩ := h.cleanupStaleConnections idleTimeout
    refine ⟨hsound, hsettled.cleaned hcleaned ?_⟩
    rintro j ⟨e, he, hstale, hhit⟩ hp
    exact hslip ⟨e, he, hstale, j, hp, hhit⟩
  | shutdown =>
    cases hs
    obtain ⟨hsound, hcleaned⟩ := h.onShutdown
    refine ⟨hsound, hsettled.cleaned hcleaned ?_⟩
    rintro j ⟨key, hhit⟩ hp
    exact hslip ⟨key, j, hp, hhit⟩

/-! ## Runs -/

section Runs

variable {es : List Event}

/-- Runs without a slip. -/
abbrev Steady (η : Type) [DecidableEq η] (hash : ConnectConfig → η) (idleTimeout : ℕ) :
    Transition.System (SSHClientsManager η) Event :=
  (manager η hash idleTimeout).restrict fun t e _ => ¬ t.Slip idleTimeout e

theorem sound_run (h : (Steady η hash idleTimeout).Run .initial es t) :
    t.Sound hash ∧ t.Settled := by
  refine h.history_invariant (I := fun _ t => t.Sound hash ∧ t.Settled) ⟨.initial, .initial⟩ ?_
  rintro es t e u ⟨hsound, hsettled⟩ ⟨hs, hslip⟩
  exact hsound.next hsettled hs hslip

/-- **The registry along a run without a slip**: no event comes from a client that another one has
replaced, and no client is ended or closed before it is ready or has failed. -/
theorem manager_run (h : (Steady η hash idleTimeout).Run .initial es t) : t.IsProper hash := by
  obtain ⟨hsound, hsettled⟩ := sound_run h
  refine ⟨hsound.ends, fun k c hc hlive => ?_, hsettled⟩
  obtain ⟨registration, hreg, hclient⟩ := hsound.live k c hc hlive
  exact ⟨registration, hsound.hashed k c hc ▸ hreg, hclient⟩

/-- Two clients of one configuration, the second after the first has gone. -/
theorem manager_run_again : ∃ t : SSHClientsManager ConnectConfig,
    t.ends = [(0, .event 0), (1, .idle 1)] ∧ t.IsProper id := by
  let credentials : SSHCredentials := .password "host" 22 "user" "secret"
  obtain ⟨t, hrun, hends⟩ : ∃ t, (Steady ConnectConfig id 1).Run .initial
      [.getClient credentials none false, .ready 0, .ends 0, .closes 0,
        .getClient credentials (some 0) false, .ready 1, .wait 1001,
        .cleanupStaleConnections] t ∧ t.ends = [(0, .event 0), (1, .idle 1)] := by
    refine ⟨_, .restrict_cons rfl id <| .restrict_cons rfl id <| .restrict_cons rfl ?_ <|
      .restrict_cons rfl ?_ <| .restrict_cons rfl id <| .restrict_cons rfl id <|
      .restrict_cons rfl id <| .restrict_cons rfl ?_ .nil, by decide +kernel⟩
    -- the client is registered, and its promise is resolved
    · rintro (⟨c, registration, ⟨⟩, ⟨⟩, hne⟩ | ⟨j, ⟨c, hc, hpending⟩, -⟩)
      · exact hne rfl
      · obtain rfl | j := j <;> cases hc
        cases hpending
    · rintro (⟨c, registration, ⟨⟩, hreg, -⟩ | ⟨c, ⟨⟩, hpending⟩ | ⟨j, -, c, ⟨⟩, _, hreg, -⟩)
      · cases hreg
      · cases hpending
      · cases hreg
    · rintro ⟨e, -, -, j, ⟨c, hc, hpending⟩, -⟩
      obtain rfl | rfl | j := j <;> cases hc <;> cases hpending
  exact ⟨t, hends, manager_run hrun⟩

/-- **A socket that closes late** ends the client that has replaced its own. And a client that is
aborted before it is ready leaves its promise pending. -/
theorem not_own :
    (∃ t : SSHClientsManager ConnectConfig, (manager ConnectConfig id 300).Run .initial
        [.getClient (.password "host" 22 "user" "secret") none false, .ready 0,
          .abort (.own 0), .getClient (.password "host" 22 "user" "secret") none false, .ready 1,
          .closes 0] t ∧
      t.ends = [(0, .abort (.own 0)), (1, .event 0)] ∧ ¬ t.IsProper id) ∧
    ∃ t : SSHClientsManager ConnectConfig, (manager ConnectConfig id 300).Run .initial
        [.getClient (.password "host" 22 "user" "secret") (some 0) false, .abort (.given 0),
          .ends 0, .closes 0] t ∧
      t.created.map (fun c => (c.ended, c.closed, c.returnPromise)) = [(true, true, .pending)] ∧
      ¬ t.IsProper id := by
  refine ⟨⟨_, Transition.System.run_of_follow id rfl, rfl, fun h => ?_⟩,
    ⟨_, Transition.System.run_of_follow id rfl, rfl, fun h => ?_⟩⟩
  · obtain ⟨c, -, hown⟩ := h.ends 1 (.event 0) (List.mem_cons_of_mem _ List.mem_cons_self)
    exact absurd hown nofun
  · exact h.settled 0 _ rfl (.inl rfl) rfl

end Runs

end SSHClientsManager

end N8n.SshClients
