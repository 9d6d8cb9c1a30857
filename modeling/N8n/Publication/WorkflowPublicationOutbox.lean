import Mathlib.Data.List.MinMax
import N8n.Foundations.Table
import N8n.Foundations.Transition

/-!
# The workflow publication outbox

A table of publications to carry out. A publication is enqueued as a pending record, claimed by a
consumer, which holds a lease on it, and ends in a terminal status, unless the consumer returns it.
Every operation is a statement, and any process may issue any statement at any time: a consumer that
has lost its lease still issues the statements it was going to issue.

## Main definitions

* `Record`, `Outbox`: the rows, and the table with its primary key and its partial unique index
* `State`: the outbox and the deletions that consumers have yet to issue
* `enqueue`, `claimNextPendingRecord`, `returnToPending`, `markCompleted`, …: the statements
* `outbox`: the statements as a transition system

## Main results

* `origin_next`: where the rows after a statement come from
* `claimed_next`: which records are claimed
* `pending_next`: what becomes of a pending record
-/

namespace N8n.Publication

/-! ## Records -/

inductive WorkflowPublicationOutboxStatus
  | pending
  | inProgress
  | completed
  | partialSuccess
  | failed
deriving DecidableEq, Repr

namespace WorkflowPublicationOutboxStatus

/-- The statuses that the partial unique index covers. -/
def isInFlight : WorkflowPublicationOutboxStatus → Bool
  | pending | inProgress => true
  | completed | partialSuccess | failed => false

def text : WorkflowPublicationOutboxStatus → String
  | pending => "pending"
  | inProgress => "in_progress"
  | completed => "completed"
  | partialSuccess => "partial_success"
  | failed => "failed"

end WorkflowPublicationOutboxStatus

inductive WorkflowPublicationReason
  | publish
  | startup
  | leadershipTakeover
  | reconcile
deriving DecidableEq, Repr

/-- A row, with its times in milliseconds. -/
structure Record where
  id : ℕ
  workflowId : String
  publishedVersionId : String
  status : WorkflowPublicationOutboxStatus
  reason : WorkflowPublicationReason
  errorMessage : Option String
  updatedAt : ℤ
deriving DecidableEq, Repr

namespace Record

def isInFlight (r : Record) : Bool := r.status.isInFlight

def isPendingOf (workflowId : String) (r : Record) : Bool :=
  r.workflowId = workflowId ∧ r.status = .pending

def isInProgressOf (workflowId : String) (r : Record) : Bool :=
  r.workflowId = workflowId ∧ r.status = .inProgress

/-- `WHERE id = … AND status = 'in_progress'`. -/
def isClaimed (id : ℕ) (r : Record) : Bool := r.id = id ∧ r.status = .inProgress

/-- Two rows that cannot both be in the table: the primary key is the id, and workflow and status
are unique while the record is in flight. -/
def Clash (r r' : Record) : Prop :=
  r.id = r'.id ∨ (r.isInFlight = true ∧ r.workflowId = r'.workflowId ∧ r.status = r'.status)

instance : DecidableRel Clash := fun r r' => by unfold Clash; infer_instance

instance : Std.Symm Clash := ⟨by
  rintro r r' (hid | ⟨hr, hw, hs⟩)
  · exact .inl hid.symm
  · refine .inr ⟨?_, hw.symm, hs.symm⟩
    rwa [isInFlight, ← hs]⟩

end Record

/-- The value that a record carries for a workflow without an active version. -/
def UNPUBLISH_VERSION_SENTINEL : String := "__unpublish__"

abbrev Outbox := Table Record Record.Clash

inductive DatabaseType
  | postgresdb
  | sqlite
deriving DecidableEq, Repr

structure State where
  outbox : Outbox
  lastId : ℕ
  /-- The records whose return collided with a newer one, and whose deletion is yet to come. -/
  superseded : List ℕ

namespace State

def initial : State := ⟨.empty, 0, []⟩

/-! ## Statements

`none` stands for a statement that cannot be issued, or that the database refuses. -/

/-- `INSERT … ON CONFLICT`: insert a pending record under the id that the database assigns, or
change the pending record that is there. -/
def insertPending (s : State) (id : ℕ) (workflowId publishedVersionId : String)
    (reason : WorkflowPublicationReason) (now : ℤ) (doUpdate : Record → Record) : Option State :=
  if s.lastId < id then
    if s.outbox.rows.any (Record.isPendingOf workflowId) then
      (Table.write (Table.updateWhere (Record.isPendingOf workflowId) doUpdate s.outbox.rows)).map
        fun outbox => { s with outbox := outbox }
    else
      (Table.write (s.outbox.rows ++
        [⟨id, workflowId, publishedVersionId, .pending, reason, none, now⟩])).map
        fun outbox => { s with outbox := outbox, lastId := id }
  else none

def enqueue (s : State) (id : ℕ) (workflowId publishedVersionId : String)
    (reason : WorkflowPublicationReason) (now : ℤ) : Option State :=
  s.insertPending id workflowId publishedVersionId reason now fun r =>
    { r with publishedVersionId := publishedVersionId, reason := reason, updatedAt := now }

/-- The row that `enqueueByWorkflowIds` inserts for one workflow. A conflict changes nothing. -/
def enqueueByWorkflowId (s : State) (id : ℕ) (workflowId : String) (activeVersionId : Option String)
    (reason : WorkflowPublicationReason) (now : ℤ) : Option State :=
  s.insertPending id workflowId (activeVersionId.getD UNPUBLISH_VERSION_SENTINEL) reason now fun r =>
    r

/-- A pending record of a workflow without one in progress, or one whose lease has expired. -/
def isClaimable (rows : List Record) (leaseSeconds : ℕ) (now : ℤ) (o : Record) : Bool :=
  (o.status = .pending && !rows.any (Record.isInProgressOf o.workflowId)) ||
    (o.status = .inProgress && o.updatedAt < now - 1000 * leaseSeconds)

/-- `UPDATE … SET status = 'in_progress' WHERE id = …`. -/
def setInProgress (outbox : Outbox) (id : ℕ) (now : ℤ) : Option Outbox :=
  Table.write (Table.updateWhere (fun r => r.id = id)
    (fun r => { r with status := .inProgress, updatedAt := now }) outbox.rows)

/-- The oldest claimable row that no other transaction has locked. The statement returns it as it
leaves it. -/
def claimWithPostgresLocking (outbox : Outbox) (leaseSeconds : ℕ) (now : ℤ) (locked : List ℕ) :
    Option (Outbox × Record) := do
  let claimable := outbox.rows.filter fun o =>
    isClaimable outbox.rows leaseSeconds now o && decide (o.id ∉ locked)
  let record ← claimable.argmin Record.id
  let outbox ← setInProgress outbox record.id now
  pure (outbox, { record with status := .inProgress, updatedAt := now })

/-- The oldest claimable row. It is read before the update, and only its status is set. -/
def claimWithSqliteTransaction (outbox : Outbox) (leaseSeconds : ℕ) (now : ℤ) :
    Option (Outbox × Record) := do
  let record ← (outbox.rows.filter (isClaimable outbox.rows leaseSeconds now)).argmin Record.id
  let outbox ← setInProgress outbox record.id now
  pure (outbox, { record with status := .inProgress })

def claimNextPendingRecord (databaseType : DatabaseType) (outbox : Outbox) (leaseSeconds : ℕ)
    (now : ℤ) (locked : List ℕ) : Option (Outbox × Record) :=
  match databaseType with
  | .postgresdb => claimWithPostgresLocking outbox leaseSeconds now locked
  | .sqlite => claimWithSqliteTransaction outbox leaseSeconds now

/-- Return a claimed record. Where the unique index refuses it, its deletion is to follow. -/
def returnToPending (s : State) (id : ℕ) (now : ℤ) : State :=
  let rows := Table.updateWhere (Record.isClaimed id)
    (fun r => { r with status := .pending, errorMessage := none, updatedAt := now }) s.outbox.rows
  match Table.write rows with
  | some outbox => { s with outbox := outbox }
  | none => { s with superseded := id :: s.superseded }

/-- What a consumer does once the return of a record has collided. -/
def deleteSuperseded (s : State) (id : ℕ) : Option State :=
  if id ∈ s.superseded then
    some { s with
      outbox := s.outbox.delete (Record.isClaimed id)
      superseded := s.superseded.erase id }
  else none

/-- Move a claimed record to a terminal status. -/
def transition (outbox : Outbox) (id : ℕ) (target : WorkflowPublicationOutboxStatus)
    (errorMessage : Option String) (now : ℤ) : Except String Outbox :=
  let affected := outbox.rows.countP (Record.isClaimed id)
  let rows := Table.updateWhere (Record.isClaimed id)
    (fun r => { r with status := target, errorMessage := errorMessage, updatedAt := now })
    outbox.rows
  match Table.write rows with
  | some outbox =>
    if affected = 1 then .ok outbox
    else
      .error ("Expected to transition outbox record " ++ toString id ++ " to '" ++ target.text ++
        "', but " ++ toString affected ++
        " rows were affected. The record may not be in progress.")
  | none => .error "unique constraint"

def markCompleted (outbox : Outbox) (id : ℕ) (warningMessage : Option String) (now : ℤ) :
    Except String Outbox :=
  transition outbox id .completed warningMessage now

def markFailed (outbox : Outbox) (id : ℕ) (errorMessage : String) (now : ℤ) :
    Except String Outbox :=
  transition outbox id .failed (some errorMessage) now

def markPartialSuccess (outbox : Outbox) (id : ℕ) (errorMessage : String) (now : ℤ) :
    Except String Outbox :=
  transition outbox id .partialSuccess (some errorMessage) now

/-- Delete a batch of the terminal records that are older than their retention. -/
def deleteTerminalOlderThan (outbox : Outbox) (completedRetentionSeconds failedRetentionSeconds : ℕ)
    (batch : List ℕ) (now : ℤ) : Outbox :=
  outbox.delete fun r =>
    ((r.status = .completed && r.updatedAt < now - 1000 * completedRetentionSeconds) ||
      ((r.status = .failed || r.status = .partialSuccess) &&
        r.updatedAt < now - 1000 * failedRetentionSeconds)) &&
    decide (r.id ∈ batch)

/-- The outbox after a statement, which is as it was if the statement throws. -/
def afterMark (s : State) : Except String Outbox → State
  | .ok outbox => { s with outbox := outbox }
  | .error _ => s

end State

/-! ## Runs -/

/-- A statement that some process issues. A claim announces the record it returns. The insertion of
several workflows in one statement is a run of insertions of one. -/
inductive Event
  | enqueue (id : ℕ) (workflowId publishedVersionId : String) (reason : WorkflowPublicationReason)
    (now : ℤ)
  | enqueueByWorkflowId (id : ℕ) (workflowId : String) (activeVersionId : Option String)
    (reason : WorkflowPublicationReason) (now : ℤ)
  | claim (leaseSeconds : ℕ) (now : ℤ) (locked : List ℕ) (record : Option Record)
  | returnToPending (id : ℕ) (now : ℤ)
  | deleteSuperseded (id : ℕ)
  | markCompleted (id : ℕ) (warningMessage : Option String) (now : ℤ)
  | markFailed (id : ℕ) (errorMessage : String) (now : ℤ)
  | markPartialSuccess (id : ℕ) (errorMessage : String) (now : ℤ)
  | deleteTerminalOlderThan (completedRetentionSeconds failedRetentionSeconds : ℕ)
    (batch : List ℕ) (now : ℤ)
deriving DecidableEq, Repr

namespace Event

def claimed : Event → Option Record
  | claim _ _ _ record => record
  | _ => none

def enqueued (workflowId : String) : Event → Option String
  | enqueue _ w publishedVersionId _ _ => if w = workflowId then some publishedVersionId else none
  | _ => none

end Event

section Runs

variable (databaseType : DatabaseType)

def State.next (s : State) : Event → Option State
  | .enqueue id workflowId publishedVersionId reason now =>
    s.enqueue id workflowId publishedVersionId reason now
  | .enqueueByWorkflowId id workflowId activeVersionId reason now =>
    s.enqueueByWorkflowId id workflowId activeVersionId reason now
  | .claim leaseSeconds now locked record =>
    match State.claimNextPendingRecord databaseType s.outbox leaseSeconds now locked with
    | some (outbox, claimed) =>
      if record = some claimed then some { s with outbox := outbox } else none
    | none => if record = none then some s else none
  | .returnToPending id now => some (s.returnToPending id now)
  | .deleteSuperseded id => s.deleteSuperseded id
  | .markCompleted id warningMessage now =>
    some (s.afterMark (State.markCompleted s.outbox id warningMessage now))
  | .markFailed id errorMessage now =>
    some (s.afterMark (State.markFailed s.outbox id errorMessage now))
  | .markPartialSuccess id errorMessage now =>
    some (s.afterMark (State.markPartialSuccess s.outbox id errorMessage now))
  | .deleteTerminalOlderThan completedRetentionSeconds failedRetentionSeconds batch now =>
    some { s with
      outbox := State.deleteTerminalOlderThan s.outbox completedRetentionSeconds
        failedRetentionSeconds batch now }

/-- The statements of any number of processes, in any order. -/
def outbox : Transition.System State Event where
  init s := s = .initial
  step s e t := s.next databaseType e = some t

end Runs

/-! ## What a statement does -/

section Statements

variable {databaseType : DatabaseType} {s t : State} {e : Event} {now : ℤ} {w v : String}
  {target : WorkflowPublicationOutboxStatus} {reason : WorkflowPublicationReason} {id : ℕ}
  {leaseSeconds : ℕ} {doUpdate : Record → Record} {message : Option String} {q : Record}
  {p : Record → Bool} {outbox outbox' : Outbox} {f : Record → Record}

/-- A claim returns a row that was claimable, and leaves it in progress. -/
theorem claimNextPendingRecord_eq_some
    {locked : List ℕ} {c : Record}
    (h : State.claimNextPendingRecord databaseType outbox leaseSeconds now locked =
      some (outbox', c)) :
    ∃ r ∈ outbox.rows, State.isClaimable outbox.rows leaseSeconds now r = true ∧
      State.setInProgress outbox r.id now = some outbox' ∧ c.id = r.id ∧
      c.workflowId = r.workflowId ∧ c.publishedVersionId = r.publishedVersionId := by
  cases databaseType with
  | postgresdb =>
    simp only [State.claimNextPendingRecord, State.claimWithPostgresLocking,
      Option.bind_eq_bind, Option.bind_eq_some_iff, Option.pure_def, Option.some.injEq,
      Prod.mk.injEq] at h
    obtain ⟨r, hr, outbox, hset, rfl, rfl⟩ := h
    obtain ⟨hr, hclaimable⟩ := List.mem_filter.mp (List.argmin_mem hr)
    exact ⟨r, hr, (Bool.and_eq_true_iff.mp hclaimable).1, hset, rfl, rfl, rfl⟩
  | sqlite =>
    simp only [State.claimNextPendingRecord, State.claimWithSqliteTransaction,
      Option.bind_eq_bind, Option.bind_eq_some_iff, Option.pure_def, Option.some.injEq,
      Prod.mk.injEq] at h
    obtain ⟨r, hr, outbox, hset, rfl, rfl⟩ := h
    obtain ⟨hr, hclaimable⟩ := List.mem_filter.mp (List.argmin_mem hr)
    exact ⟨r, hr, hclaimable, hset, rfl, rfl, rfl⟩

/-- The step of a claim, which announces the record it returns. -/
theorem next_claim {locked : List ℕ} {record : Option Record}
    (h : s.next databaseType (.claim leaseSeconds now locked record) = some t) :
    (record = none ∧ t = s) ∨
    ∃ r ∈ s.outbox.rows, ∃ c, record = some c ∧
      State.isClaimable s.outbox.rows leaseSeconds now r = true ∧
      c.id = r.id ∧ c.workflowId = r.workflowId ∧ c.publishedVersionId = r.publishedVersionId ∧
      t.lastId = s.lastId ∧ t.outbox.rows = Table.updateWhere (fun r' => r'.id = r.id)
        (fun r' => { r' with status := .inProgress, updatedAt := now }) s.outbox.rows := by
  simp only [State.next] at h
  split at h
  · rename_i outbox c hclaim
    split_ifs at h with hrecord
    cases h
    obtain ⟨r, hr, hclaimable, hset, hid, hw, hv⟩ := claimNextPendingRecord_eq_some hclaim
    exact .inr ⟨r, hr, c, hrecord, hclaimable, hid, hw, hv, rfl, Table.write_eq_some.mp hset⟩
  · split_ifs at h with hrecord
    exact .inl ⟨hrecord, (Option.some.inj h).symm⟩

theorem isClaimable_iff {rows : List Record} {o : Record} :
    State.isClaimable rows leaseSeconds now o = true ↔
      (o.status = .pending ∧ ∀ ip ∈ rows, ip.workflowId = o.workflowId → ip.status ≠ .inProgress) ∨
        (o.status = .inProgress ∧ o.updatedAt < now - 1000 * leaseSeconds) := by
  simp [State.isClaimable, Record.isInProgressOf]

theorem inFlight_of_isClaimable {rows : List Record} {o : Record}
    (h : State.isClaimable rows leaseSeconds now o = true) : o.isInFlight = true := by
  rcases isClaimable_iff.mp h with ⟨hs, -⟩ | ⟨hs, -⟩ <;>
    simp [Record.isInFlight, hs, WorkflowPublicationOutboxStatus.isInFlight]

theorem transition_eq_ok (h : State.transition outbox id target message now = .ok outbox') :
    outbox'.rows = Table.updateWhere (Record.isClaimed id)
      (fun r => { r with status := target, errorMessage := message, updatedAt := now })
      outbox.rows := by
  unfold State.transition at h
  dsimp only at h
  split at h
  · rename_i written hwrite
    split_ifs at h
    cases h
    exact Table.write_eq_some.mp hwrite
  · cases h

/-- Where a row comes from: it was there before the statement, or the statement inserted it. A row
in flight was in flight, and a row in progress was in progress unless the statement claimed it. -/
inductive Origin (s : State) (e : Event) (t : State) (q : Record) : Prop
  | kept (r : Record) (mem : r ∈ s.outbox.rows) (id : r.id = q.id)
    (workflowId : r.workflowId = q.workflowId)
    (inFlight : q.isInFlight = true → r.isInFlight = true)
    (inProgress : q.status = .inProgress → r.status = .inProgress ∨
      ∃ c, e.claimed = some c ∧ c.id = q.id ∧ c.workflowId = q.workflowId)
  | inserted (above : s.lastId < q.id) (below : q.id ≤ t.lastId) (pending : q.status = .pending)

theorem Origin.same (h : q ∈ s.outbox.rows) : Origin s e t q :=
  .kept q h rfl rfl id .inl

/-- Rows changed without a change of their ids, their workflows or what they are claimed for. -/
theorem Origin.of_updateWhere (hq : q ∈ Table.updateWhere p f s.outbox.rows)
    (hid : ∀ r, (f r).id = r.id) (hw : ∀ r, (f r).workflowId = r.workflowId)
    (hf : ∀ r, p r = true → (f r).isInFlight = true → r.isInFlight = true)
    (hs : ∀ r, p r = true → (f r).status = .inProgress → r.status = .inProgress) :
    Origin s e t q := by
  rcases Table.mem_updateWhere.mp hq with ⟨r, hr, hp, rfl⟩ | ⟨hq, -⟩
  · exact .kept r hr (hid r).symm (hw r).symm (hf r hp) fun h => .inl (hs r hp h)
  · exact .same hq

theorem insertPending_eq_some (h : s.insertPending id w v reason now doUpdate = some t) :
    (t.lastId = s.lastId ∧ (∃ r ∈ s.outbox.rows, r.isPendingOf w = true) ∧
      t.outbox.rows = Table.updateWhere (Record.isPendingOf w) doUpdate s.outbox.rows) ∨
    (s.lastId < id ∧ t.lastId = id ∧
      t.outbox.rows = s.outbox.rows ++ [⟨id, w, v, .pending, reason, none, now⟩]) := by
  unfold State.insertPending at h
  split_ifs at h with hid hany
  · obtain ⟨outbox, hwrite, rfl⟩ := Option.map_eq_some_iff.mp h
    exact .inl ⟨rfl, List.any_eq_true.mp hany, Table.write_eq_some.mp hwrite⟩
  · obtain ⟨outbox, hwrite, rfl⟩ := Option.map_eq_some_iff.mp h
    exact .inr ⟨hid, rfl, Table.write_eq_some.mp hwrite⟩

theorem Origin.of_insertPending (h : s.insertPending id w v reason now doUpdate = some t)
    (hq : q ∈ t.outbox.rows) (hid : ∀ r, (doUpdate r).id = r.id)
    (hw : ∀ r, (doUpdate r).workflowId = r.workflowId) (hs : ∀ r, (doUpdate r).status = r.status) :
    Origin s e t q := by
  rcases insertPending_eq_some h with ⟨-, -, hrows⟩ | ⟨habove, hlast, hrows⟩
  · rw [hrows] at hq
    refine .of_updateWhere hq hid hw ?_ ?_
    · intro r _ hr
      rwa [Record.isInFlight, hs] at hr
    · intro r _ hr
      rwa [hs] at hr
  · rw [hrows] at hq
    rcases List.mem_append.mp hq with hq | hq
    · exact .same hq
    · obtain rfl := List.mem_singleton.mp hq
      exact .inserted habove hlast.ge rfl

theorem Origin.of_afterMark (htarget : target.isInFlight = false)
    (hq : q ∈ (s.afterMark (State.transition s.outbox id target message now)).outbox.rows) :
    Origin s e t q := by
  cases h : State.transition s.outbox id target message now with
  | error message =>
    rw [h] at hq
    exact .same hq
  | ok outbox =>
    rw [h] at hq
    have hq : q ∈ outbox.rows := hq
    rw [transition_eq_ok h] at hq
    refine .of_updateWhere hq (fun _ => rfl) (fun _ => rfl) ?_ ?_
    · intro r _ hr
      exact absurd hr (by simp [Record.isInFlight, htarget])
    · intro r _ hr
      rw [show target = .inProgress from hr] at htarget
      cases htarget

/-- **Where the rows come from.** -/
theorem origin_next (h : s.next databaseType e = some t) (hq : q ∈ t.outbox.rows) :
    Origin s e t q := by
  cases e with
  | enqueue id w v reason now =>
    exact .of_insertPending h hq (fun _ => rfl) (fun _ => rfl) fun _ => rfl
  | enqueueByWorkflowId id w v reason now =>
    exact .of_insertPending h hq (fun _ => rfl) (fun _ => rfl) fun _ => rfl
  | claim leaseSeconds now locked record =>
    rcases next_claim h with ⟨-, rfl⟩ | ⟨r, hr, c, hc, hclaimable, hid, hw, -, -, hrows⟩
    · exact .same hq
    · rw [hrows] at hq
      rcases Table.mem_updateWhere.mp hq with ⟨r', hr', hp, rfl⟩ | ⟨hq, -⟩
      · -- the row that is updated is the one that was found, by the primary key
        obtain rfl : r' = r := Table.eq_of_clash hr' hr (.inl (by simpa using hp))
        exact .kept r' hr rfl rfl (fun _ => inFlight_of_isClaimable hclaimable)
          fun _ => .inr ⟨c, hc, hid, hw⟩
      · exact .same hq
  | returnToPending id now =>
    cases h
    unfold State.returnToPending at hq
    dsimp only at hq
    split at hq
    · rename_i outbox hwrite
      rw [show outbox.rows = _ from Table.write_eq_some.mp hwrite] at hq
      refine .of_updateWhere hq (fun _ => rfl) (fun _ => rfl) ?_ ?_
      · intro r hp _
        have hs : r.status = .inProgress := by
          have := (by simpa [Record.isClaimed] using hp : r.id = id ∧ r.status = .inProgress)
          exact this.2
        simp [Record.isInFlight, hs, WorkflowPublicationOutboxStatus.isInFlight]
      · intro r _ hr
        cases hr
    · exact .same hq
  | deleteSuperseded id =>
    unfold State.next State.deleteSuperseded at h
    dsimp only at h
    split_ifs at h
    cases h
    exact .same (Table.mem_deleteWhere.mp hq).1
  | markCompleted id message now =>
    cases h
    exact .of_afterMark rfl hq
  | markFailed id message now =>
    cases h
    exact .of_afterMark rfl hq
  | markPartialSuccess id message now =>
    cases h
    exact .of_afterMark rfl hq
  | deleteTerminalOlderThan completed failed batch now =>
    cases h
    exact .same (Table.mem_deleteWhere.mp hq).1

theorem lastId_next (h : s.next databaseType e = some t) : s.lastId ≤ t.lastId := by
  have insert : ∀ {id w v reason now doUpdate},
      s.insertPending id w v reason now doUpdate = some t → s.lastId ≤ t.lastId := by
    intro id w v reason now doUpdate h
    rcases insertPending_eq_some h with ⟨hlast, -, -⟩ | ⟨habove, hlast, -⟩
    · exact hlast.ge
    · rw [hlast]
      exact habove.le
  have mark : ∀ {result}, t = s.afterMark result → s.lastId ≤ t.lastId := by
    rintro (_ | _) rfl <;> exact le_refl _
  cases e with
  | enqueue id w v reason now => exact insert h
  | enqueueByWorkflowId id w v reason now => exact insert h
  | claim leaseSeconds now locked record =>
    rcases next_claim h with ⟨-, rfl⟩ | ⟨r, -, c, -, -, -, -, -, hlast, -⟩
    · exact le_refl t.lastId
    · exact hlast.ge
  | returnToPending id now =>
    cases h
    unfold State.returnToPending
    dsimp only
    split <;> exact le_refl s.lastId
  | deleteSuperseded id =>
    unfold State.next State.deleteSuperseded at h
    dsimp only at h
    split_ifs at h
    cases h
    exact le_refl s.lastId
  | markCompleted id message now => exact mark (Option.some.inj h).symm
  | markFailed id message now => exact mark (Option.some.inj h).symm
  | markPartialSuccess id message now => exact mark (Option.some.inj h).symm
  | deleteTerminalOlderThan completed failed batch now =>
    cases h
    exact le_refl s.lastId

/-- What is claimed: a record in flight, and a pending one only if its workflow has none in
progress. -/
theorem claimed_next {c : Record} (h : s.next databaseType e = some t)
    (hc : e.claimed = some c) :
    ∃ r ∈ s.outbox.rows, r.id = c.id ∧ r.workflowId = c.workflowId ∧ r.isInFlight = true ∧
      (r.status = .inProgress ∨
        ∀ ip ∈ s.outbox.rows, ip.workflowId = r.workflowId → ip.status ≠ .inProgress) := by
  cases e with
  | claim leaseSeconds now locked record =>
    obtain rfl : record = some c := hc
    rcases next_claim h with ⟨hnone, -⟩ | ⟨r, hr, c', hc, hclaimable, hid, hw, -⟩
    · cases hnone
    · cases hc
      refine ⟨r, hr, hid.symm, hw.symm, inFlight_of_isClaimable hclaimable, ?_⟩
      rcases isClaimable_iff.mp hclaimable with ⟨-, hnone⟩ | ⟨hs, -⟩
      · exact .inr hnone
      · exact .inl hs
  | _ => cases hc

def HasPending (s : State) (workflowId publishedVersionId : String) : Prop :=
  ∃ r ∈ s.outbox.rows, r.workflowId = workflowId ∧ r.status = .pending ∧
    r.publishedVersionId = publishedVersionId

def Event.Claims (e : Event) (workflowId publishedVersionId : String) : Prop :=
  ∃ c, e.claimed = some c ∧ c.workflowId = workflowId ∧ c.publishedVersionId = publishedVersionId

/-- A pending record outlives an update that does not match it. -/
theorem HasPending.of_updateWhere (h : HasPending s w v)
    (hrows : t.outbox.rows = Table.updateWhere p f s.outbox.rows)
    (hp : ∀ r, r.workflowId = w → r.status = .pending → p r = false) : HasPending t w v := by
  obtain ⟨r, hr, hw, hs, hv⟩ := h
  refine ⟨r, ?_, hw, hs, hv⟩
  rw [hrows]
  exact Table.mem_updateWhere.mpr (.inr ⟨hr, hp r hw hs⟩)

theorem HasPending.of_delete (h : HasPending s w v)
    (hrows : t.outbox.rows = Table.deleteWhere p s.outbox.rows)
    (hp : ∀ r, r.status = .pending → p r = false) : HasPending t w v := by
  obtain ⟨r, hr, hw, hs, hv⟩ := h
  refine ⟨r, ?_, hw, hs, hv⟩
  rw [hrows]
  exact Table.mem_deleteWhere.mpr ⟨hr, hp r hs⟩

theorem isClaimed_of_pending {r : Record} (h : r.status = .pending) : r.isClaimed id = false := by
  simp [Record.isClaimed, h]

theorem HasPending.of_afterMark (h : HasPending s w v) :
    HasPending (s.afterMark (State.transition s.outbox id target message now)) w v := by
  cases hresult : State.transition s.outbox id target message now with
  | error message => exact h
  | ok outbox =>
    exact h.of_updateWhere (transition_eq_ok hresult) fun r _ hs => isClaimed_of_pending hs

/-- An insertion for a workflow leaves it with a pending record, whose version changes only where
the statement says so. -/
theorem HasPending.of_insertPending {w v w' v' : String}
    (hins : s.insertPending id w' v' reason now doUpdate = some t) (h : HasPending s w v)
    (hkeep : w' = w → ∀ r, doUpdate r = r) : HasPending t w v := by
  rcases insertPending_eq_some hins with ⟨-, -, hrows⟩ | ⟨-, -, hrows⟩
  · obtain ⟨r, hr, hw, hs, hv⟩ := h
    refine ⟨r, ?_, hw, hs, hv⟩
    rw [hrows]
    by_cases hww : w' = w
    · refine Table.mem_updateWhere.mpr (.inl ⟨r, hr, ?_, hkeep hww r⟩)
      simp [Record.isPendingOf, hs, hw, hww]
    · refine Table.mem_updateWhere.mpr (.inr ⟨hr, ?_⟩)
      have hne : r.workflowId ≠ w' := fun heq => hww (heq.symm.trans hw)
      simp [Record.isPendingOf, hne]
  · obtain ⟨r, hr, hrest⟩ := h
    refine ⟨r, ?_, hrest⟩
    rw [hrows]
    exact List.mem_append_left _ hr

/-- **What becomes of a pending record**: it stays until its workflow is enqueued again or it is
claimed. -/
theorem pending_next (h : s.next databaseType e = some t) (hp : HasPending s w v)
    (he : e.enqueued w = none) : HasPending t w v ∨ e.Claims w v := by
  cases e with
  | enqueue id w' v' reason now =>
    refine .inl (hp.of_insertPending h ?_)
    intro hww
    rw [Event.enqueued, if_pos hww] at he
    cases he
  | enqueueByWorkflowId id w' v' reason now =>
    exact .inl (hp.of_insertPending h fun _ _ => rfl)
  | claim leaseSeconds now locked record =>
    rcases next_claim h with ⟨-, rfl⟩ | ⟨r', hr', c, hc, -, -, hcw, hcv, -, hrows⟩
    · exact .inl hp
    · obtain ⟨r, hr, hw, hs, hv⟩ := hp
      by_cases hid : r.id = r'.id
      · -- the record itself is claimed
        obtain rfl : r = r' := Table.eq_of_clash hr hr' (.inl hid)
        exact .inr ⟨c, hc, hcw.trans hw, hcv.trans hv⟩
      · refine .inl ⟨r, ?_, hw, hs, hv⟩
        rw [hrows]
        exact Table.mem_updateWhere.mpr (.inr ⟨hr, by simpa using hid⟩)
  | returnToPending id now =>
    cases h
    left
    unfold State.returnToPending
    dsimp only
    split
    · rename_i outbox hwrite
      refine hp.of_updateWhere (Table.write_eq_some.mp hwrite) ?_
      exact fun r _ hs => isClaimed_of_pending hs
    · exact hp
  | deleteSuperseded id =>
    unfold State.next State.deleteSuperseded at h
    dsimp only at h
    split_ifs at h
    cases h
    exact .inl (hp.of_delete rfl fun r hs => isClaimed_of_pending hs)
  | markCompleted id message now =>
    cases h
    exact .inl hp.of_afterMark
  | markFailed id message now =>
    cases h
    exact .inl hp.of_afterMark
  | markPartialSuccess id message now =>
    cases h
    exact .inl hp.of_afterMark
  | deleteTerminalOlderThan completed failed batch now =>
    cases h
    exact .inl (hp.of_delete rfl fun r hs => by simp [hs])

/-- After an enqueue the workflow has a pending record for its version. -/
theorem hasPending_enqueue (h : s.next databaseType e = some t) (he : e.enqueued w = some v) :
    HasPending t w v := by
  cases e with
  | enqueue id w' v' reason now =>
    simp only [Event.enqueued] at he
    split_ifs at he with hw
    obtain rfl := Option.some.inj he
    subst hw
    rcases insertPending_eq_some h with ⟨-, ⟨r, hr, hpending⟩, hrows⟩ | ⟨-, -, hrows⟩
    · refine ⟨{ r with publishedVersionId := v', reason := reason, updatedAt := now }, ?_, ?_⟩
      · rw [hrows]
        exact Table.mem_updateWhere.mpr (.inl ⟨r, hr, hpending, rfl⟩)
      · have hr : r.workflowId = w' ∧ r.status = .pending := by
          simpa [Record.isPendingOf] using hpending
        exact ⟨hr.1, hr.2, rfl⟩
    · refine ⟨⟨id, w', v', .pending, reason, none, now⟩, ?_, rfl, rfl, rfl⟩
      rw [hrows]
      exact List.mem_append_right _ (List.mem_singleton.mpr rfl)
  | _ => cases he

end Statements

end N8n.Publication
