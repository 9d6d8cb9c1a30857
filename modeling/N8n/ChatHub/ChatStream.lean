import Mathlib.Data.List.Perm.Basic
import Mathlib.Data.List.Pairwise
import Mathlib.Data.Int.Order.Basic
import Mathlib.Order.Nat
import Mathlib.Tactic.ByContra
import Mathlib.Tactic.SplitIfs
import N8n.Foundations.Transition

/-!
# Numbered chunks of a chat stream

The chunks of a chat stream are numbered, and the last ones are buffered for a client that
reconnects. The number and the buffer of a session are kept in maps of the process or in Redis. In
the process a number is drawn without a pause, and the calls go on in turn. In Redis a call reads,
waits, and writes back, and other calls may have written in between.

## Main definitions

* `Session`, `Call`: what is stored for a session, and a call of the stream service
* `access`: what a call does between two pauses in Redis
* `chatStream`: overlapping calls as a transition system, for both stores
* `Fresh`: an access that succeeds and does not write back what is outdated
* `Replayable`: numbers increase, and the buffer holds the last chunks

## Main results

* `Sound.access`: a fresh access keeps the invariant
* `Sound.settle`: in the process an access is fresh
* `replayable_run`: streams are replayable in the process, and in Redis along fresh accesses
* `not_replayable`: two calls that overlap in Redis
-/

namespace N8n.ChatHub

/-! ## Sessions and calls -/

structure StreamState where
  messageId : String
  userId : String
  sequenceNumber : ℕ
deriving DecidableEq, Repr

structure BufferedChunk where
  sequenceNumber : ℕ
  content : String
deriving DecidableEq, Repr

/-- The calls of the stream service that draw a number. -/
inductive Task
  | startStream (userId messageId : String)
  | sendChunk (messageId content : String)
  | endStream (messageId status : String)
  | sendError (messageId error : String)
deriving DecidableEq, Repr

/-- What is pushed to a user for a call. -/
structure Message where
  userId : String
  task : Task
  sequenceNumber : ℕ
deriving DecidableEq, Repr

/-- What is stored for a session, with the chunks and the messages so far. -/
structure Session where
  state : Option StreamState
  chunks : Option (List BufferedChunk)
  /-- The chunks that were given a number, in the order in which they were given it. -/
  issued : List BufferedChunk
  messages : List Message
deriving DecidableEq, Repr

/-- Where a call stands: before which access to the store. -/
inductive Stage
  /-- `setCurrentMessage` is to read the state. -/
  | naming (userId messageId : String)
  /-- `setCurrentMessage` is to write the state back. -/
  | named (userId messageId : String) (state : StreamState)
  /-- `getStreamState` is to read the state. -/
  | looking
  /-- `incrementSequence` is to read the state. -/
  | counting (userId : String)
  /-- `incrementSequence` is to write the state back. -/
  | counted (userId : String) (state : StreamState)
  /-- `bufferChunk` is to read the buffer. -/
  | buffering (userId : String) (chunk : BufferedChunk)
  /-- `bufferChunk` is to write the buffer back. -/
  | buffered (userId : String) (chunk : BufferedChunk) (chunks : List BufferedChunk)
  | pushing (userId : String) (sequenceNumber : ℕ)
deriving DecidableEq, Repr

structure Call where
  task : Task
  stage : Stage
deriving DecidableEq, Repr

def Task.first : Task → Stage
  | startStream userId messageId => .naming userId messageId
  | sendChunk _ _ | endStream _ _ | sendError _ _ => .looking

/-- A chunk that was given a number and is not in the buffer yet. -/
def Call.waiting (call : Call) : Option BufferedChunk :=
  match call.stage with
  | .buffering _ chunk | .buffered _ chunk _ => some chunk
  | .naming _ _ | .named _ _ _ | .looking | .counting _ | .counted _ _ | .pushing _ _ => none

/-- The call is about to write back what it has read. -/
def Call.isWriting (call : Call) : Bool :=
  match call.stage with
  | .named _ _ _ | .counted _ _ | .buffered _ _ _ => true
  | .naming _ _ | .looking | .counting _ | .buffering _ _ | .pushing _ _ => false

namespace Session

/-- `startExecution`, for a session that has an execution. -/
def initial (userId : Option String) : Session where
  state := userId.map fun userId => ⟨"", userId, 0⟩
  chunks := userId.map fun _ => []
  issued := []
  messages := []

/-- `chunks.length > maxBufferedChunks` makes `bufferChunk` remove the oldest chunk. -/
def shift (maxBufferedChunks : ℕ) : List BufferedChunk → List BufferedChunk
  | [] => []
  | chunk :: chunks =>
    if maxBufferedChunks < chunks.length + 1 then shift maxBufferedChunks chunks
    else chunk :: chunks

def getChunksAfter (s : Session) (lastReceivedSequence : ℤ) : List BufferedChunk :=
  (s.chunks.getD []).filter fun chunk => lastReceivedSequence < (chunk.sequenceNumber : ℤ)

/-- A number is drawn. A chunk goes on to the buffer, any other message is pushed. -/
def issue (s : Session) (task : Task) (userId : String) (sequenceNumber : ℕ) :
    Session × Option Call :=
  match task with
  | .sendChunk _ content =>
    ({ s with issued := s.issued ++ [⟨sequenceNumber, content⟩] },
      some ⟨task, .buffering userId ⟨sequenceNumber, content⟩⟩)
  | .startStream _ _ | .endStream _ _ | .sendError _ _ =>
    (s, some ⟨task, .pushing userId sequenceNumber⟩)

/-- One access to the store, and what is left of the call. A read that fails finds nothing, and a
write that fails changes nothing. -/
def access (maxBufferedChunks : ℕ) (failed : Bool) (s : Session) (call : Call) :
    Session × Option Call :=
  match call.stage with
  | .naming userId messageId =>
    match if failed then none else s.state with
    | none => (s, some ⟨call.task, .counting userId⟩)
    | some state => (s, some ⟨call.task, .named userId messageId state⟩)
  | .named userId messageId state =>
    (if failed then s else { s with state := some { state with messageId := messageId } },
      some ⟨call.task, .counting userId⟩)
  | .looking =>
    match if failed then none else s.state with
    | none => (s, none)
    | some state => (s, some ⟨call.task, .counting state.userId⟩)
  | .counting userId =>
    match if failed then none else s.state with
    | none => s.issue call.task userId 0
    | some state => (s, some ⟨call.task, .counted userId state⟩)
  | .counted userId state =>
    let state := { state with sequenceNumber := state.sequenceNumber + 1 }
    (if failed then s else { s with state := some state }).issue call.task userId
      state.sequenceNumber
  | .buffering userId chunk =>
    (s, some ⟨call.task,
      .buffered userId chunk (if failed then [] else s.chunks.getD [])⟩)
  | .buffered userId chunk chunks =>
    (if failed then s
      else { s with chunks := some (shift maxBufferedChunks (chunks ++ [chunk])) },
      some ⟨call.task, .pushing userId chunk.sequenceNumber⟩)
  | .pushing userId sequenceNumber =>
    ({ s with messages := s.messages ++ [⟨userId, call.task, sequenceNumber⟩] }, none)

/-- In the process what was read is written back at once. -/
def settle (maxBufferedChunks : ℕ) (s : Session) (call : Call) : Session × Option Call :=
  let read := s.access maxBufferedChunks false call
  match read.2 with
  | none => read
  | some rest => if rest.isWriting then read.1.access maxBufferedChunks false rest else read

end Session

/-! ## Runs -/

inductive Store
  | memory | redis
deriving DecidableEq, Repr

/-- The calls on one session that have not returned, in the order of their continuations. -/
structure ChatStream where
  session : Session
  calls : List Call
deriving DecidableEq, Repr

inductive Event
  | start (task : Task)
  /-- A call goes on to its next pause. -/
  | resume (position : ℕ) (failed : Bool)
deriving DecidableEq, Repr

def ChatStream.initial (userId : Option String) : ChatStream := ⟨.initial userId, []⟩

/-- In the process a call starts at once, and the calls go on in turn. In Redis any access may be
next. -/
def ChatStream.next (store : Store) (maxBufferedChunks : ℕ) (c : ChatStream) :
    Event → Option ChatStream
  | .start task =>
    match store with
    | .memory =>
      let started := c.session.settle maxBufferedChunks ⟨task, task.first⟩
      some ⟨started.1, c.calls ++ started.2.toList⟩
    | .redis => some { c with calls := c.calls ++ [⟨task, task.first⟩] }
  | .resume position failed =>
    match store with
    | .memory =>
      match c.calls with
      | [] => none
      | call :: calls =>
        if position = 0 ∧ failed = false then
          let resumed := c.session.settle maxBufferedChunks call
          some ⟨resumed.1, calls ++ resumed.2.toList⟩
        else none
    | .redis =>
      c.calls[position]?.map fun call =>
        let resumed := c.session.access maxBufferedChunks failed call
        ⟨resumed.1, c.calls.eraseIdx position ++ resumed.2.toList⟩

def chatStream (store : Store) (maxBufferedChunks : ℕ) : Transition.System ChatStream Event where
  init c := ∃ userId, c = .initial userId
  step c e d := c.next store maxBufferedChunks e = some d

/-! ## Replay -/

/-- The chunks that were given a number and are not in the buffer yet. -/
def waiting (calls : List Call) : List BufferedChunk := calls.filterMap Call.waiting

def lastNumber (s : Session) : ℕ := (s.state.map (·.sequenceNumber)).getD 0

/-- Numbers increase in the order in which they were given. The buffer holds the last chunks, those
apart that a call is still about to buffer, and a client is sent each of them once, in order. -/
def Replayable (maxBufferedChunks : ℕ) (c : ChatStream) : Prop :=
  c.session.issued.Pairwise (fun a b => a.sequenceNumber < b.sequenceNumber) ∧
  ∃ done inFlight, c.session.issued = done ++ inFlight ∧ inFlight.Perm (waiting c.calls) ∧
    c.session.chunks.getD [] = done.drop (done.length - maxBufferedChunks) ∧
    ∀ last, (c.session.getChunksAfter last).Pairwise
        (fun a b => a.sequenceNumber < b.sequenceNumber) ∧
      ∀ chunk, chunk ∈ c.session.getChunksAfter last ↔
        chunk ∈ done.drop (done.length - maxBufferedChunks) ∧ last < (chunk.sequenceNumber : ℤ)

/-- The access succeeds. A state that is written back has the number that is stored, a buffer that
is written back is the one that is stored, and no chunk with a smaller number is still to be
buffered. -/
def FreshAccess (s : Session) (call : Call) (others : List Call) (failed : Bool) : Prop :=
  failed = false ∧
  match call.stage with
  | .named _ _ state | .counted _ state =>
    s.state.map (·.sequenceNumber) = some state.sequenceNumber
  | .buffered _ chunk chunks =>
    chunks = s.chunks.getD [] ∧
      ∀ other ∈ waiting others, chunk.sequenceNumber ≤ other.sequenceNumber
  | .naming _ _ | .looking | .counting _ | .buffering _ _ | .pushing _ _ => True

/-- In Redis every access is fresh. -/
def Fresh (store : Store) (c : ChatStream) : Event → Prop
  | .start _ => True
  | .resume position failed => store = .redis → ∀ call ∈ c.calls[position]?,
      FreshAccess c.session call (c.calls.eraseIdx position) failed

/-! ## The invariant -/

/-- A call that sets the current message is one of `startStream`, and a call of `sendChunk` that was
let in finds a state. -/
def Admitted (s : Session) (call : Call) : Prop :=
  match call.stage with
  | .naming userId messageId | .named userId messageId _ =>
    call.task = .startStream userId messageId
  | .counting _ => ∀ messageId content, call.task = .sendChunk messageId content → s.state.isSome
  | .looking | .counted _ _ | .buffering _ _ | .buffered _ _ _ | .pushing _ _ => True

/-- What a run keeps: the numbers given are increasing and not above the last one, and the chunks
that are not yet buffered come after those that are. -/
structure Sound (maxBufferedChunks : ℕ) (s : Session) (calls : List Call) : Prop where
  increasing : s.issued.Pairwise fun a b => a.sequenceNumber < b.sequenceNumber
  bounded : ∀ chunk ∈ s.issued, chunk.sequenceNumber ≤ lastNumber s
  buffer : ∃ done inFlight, s.issued = done ++ inFlight ∧ inFlight.Perm (waiting calls) ∧
    s.chunks.getD [] = done.drop (done.length - maxBufferedChunks)
  admitted : ∀ call ∈ calls, Admitted s call

section Invariant

variable {maxBufferedChunks : ℕ} {s t : Session} {call rest : Call} {calls others : List Call}
  {chunk : BufferedChunk}

theorem waiting_cons (call : Call) (calls : List Call) :
    waiting (call :: calls) = call.waiting.toList ++ waiting calls := by
  unfold waiting
  cases h : call.waiting with
  | none => rw [List.filterMap_cons_none h, Option.toList_none, List.nil_append]
  | some chunk => rw [List.filterMap_cons_some h, Option.toList_some, List.singleton_append]

theorem waiting_append (calls others : List Call) :
    waiting (calls ++ others) = waiting calls ++ waiting others :=
  List.filterMap_append

/-- What `bufferChunk` removes is what is too much. -/
theorem shift_eq_drop (maxBufferedChunks : ℕ) (chunks : List BufferedChunk) :
    Session.shift maxBufferedChunks chunks = chunks.drop (chunks.length - maxBufferedChunks) := by
  induction chunks with
  | nil => exact List.drop_nil.symm
  | cons chunk chunks ih =>
    rw [Session.shift]
    split_ifs with hfull
    · have hlength : (chunk :: chunks).length - maxBufferedChunks =
          chunks.length - maxBufferedChunks + 1 := by
        rw [List.length_cons]
        omega
      rw [ih, hlength, List.drop_succ_cons]
    · have hlength : (chunk :: chunks).length - maxBufferedChunks = 0 := by
        rw [List.length_cons]
        omega
      rw [hlength, List.drop_zero]

/-- A chunk is buffered after the last ones. -/
theorem shift_concat (maxBufferedChunks : ℕ) (done : List BufferedChunk) (chunk : BufferedChunk) :
    Session.shift maxBufferedChunks
        (done.drop (done.length - maxBufferedChunks) ++ [chunk]) =
      (done ++ [chunk]).drop ((done ++ [chunk]).length - maxBufferedChunks) := by
  have hdrop : done.drop (done.length - maxBufferedChunks) ++ [chunk] =
      (done ++ [chunk]).drop (done.length - maxBufferedChunks) :=
    (List.drop_append_of_le_length (Nat.sub_le _ _)).symm
  rw [shift_eq_drop, hdrop, List.drop_drop]
  congr 1
  simp only [List.length_drop, List.length_append, List.length_singleton]
  omega

theorem Sound.perm (h : Sound maxBufferedChunks s calls) (hperm : calls.Perm others) :
    Sound maxBufferedChunks s others where
  increasing := h.increasing
  bounded := h.bounded
  buffer := by
    obtain ⟨done, inFlight, hissued, hwaiting, hchunks⟩ := h.buffer
    exact ⟨done, inFlight, hissued, hwaiting.trans (hperm.filterMap _), hchunks⟩
  admitted call hcall := h.admitted call (hperm.mem_iff.mpr hcall)

/-- What is still to be buffered was given a number. -/
theorem Sound.waiting_mem (h : Sound maxBufferedChunks s calls) (hchunk : chunk ∈ waiting calls) :
    chunk ∈ s.issued := by
  obtain ⟨done, inFlight, hissued, hwaiting, -⟩ := h.buffer
  rw [hissued]
  exact List.mem_append_right done (hwaiting.mem_iff.mpr hchunk)

theorem Admitted.mono (h : Admitted s call) (hstate : s.state.isSome → t.state.isSome) :
    Admitted t call := by
  unfold Admitted at h ⊢
  cases hstage : call.stage with
  | counting userId =>
    rw [hstage] at h
    exact fun messageId content htask => hstate (h messageId content htask)
  | naming userId messageId =>
    rw [hstage] at h
    exact h
  | named userId messageId state =>
    rw [hstage] at h
    exact h
  | _ => trivial

section Sound

variable (h : Sound maxBufferedChunks s (call :: others))
include h

/-- A call that goes on without giving a number or buffering a chunk. -/
theorem Sound.move {next : Option Call} (hissued : t.issued = s.issued)
    (hchunks : t.chunks = s.chunks) (hnumber : lastNumber s ≤ lastNumber t)
    (hstate : s.state.isSome → t.state.isSome) (hwaiting : next.bind Call.waiting = call.waiting)
    (hnext : ∀ rest ∈ next, Admitted t rest) :
    Sound maxBufferedChunks t (next.toList ++ others) where
  increasing := by
    rw [hissued]
    exact h.increasing
  bounded chunk hchunk := by
    rw [hissued] at hchunk
    exact (h.bounded chunk hchunk).trans hnumber
  buffer := by
    obtain ⟨done, inFlight, hdone, hperm, hbuffer⟩ := h.buffer
    refine ⟨done, inFlight, hissued.trans hdone, ?_, hchunks ▸ hbuffer⟩
    have heq : waiting (next.toList ++ others) = waiting (call :: others) := by
      rw [waiting_cons, ← hwaiting]
      cases next with
      | none => rfl
      | some rest => exact waiting_cons rest others
    rw [heq]
    exact hperm
  admitted other hother := by
    rcases List.mem_append.mp hother with hrest | hother
    · exact hnext other (Option.mem_toList.mp hrest)
    · exact (h.admitted other (List.mem_cons_of_mem call hother)).mono hstate

/-- A chunk is given a number above the last one. -/
theorem Sound.issue (hissued : t.issued = s.issued ++ [chunk]) (hchunks : t.chunks = s.chunks)
    (hlast : lastNumber s < chunk.sequenceNumber) (hnumber : chunk.sequenceNumber = lastNumber t)
    (hstate : s.state.isSome → t.state.isSome) (hcall : call.waiting = none)
    (hrest : rest.waiting = some chunk) (hnext : Admitted t rest) :
    Sound maxBufferedChunks t (rest :: others) where
  increasing := by
    rw [hissued]
    refine List.pairwise_append.mpr ⟨h.increasing, List.pairwise_singleton _ _, ?_⟩
    intro old hold new hnew
    obtain rfl := List.mem_singleton.mp hnew
    exact (h.bounded old hold).trans_lt hlast
  bounded old hold := by
    rw [hissued] at hold
    rcases List.mem_append.mp hold with hold | hnew
    · exact ((h.bounded old hold).trans hlast.le).trans hnumber.le
    · obtain rfl := List.mem_singleton.mp hnew
      exact hnumber.le
  buffer := by
    obtain ⟨done, inFlight, hdone, hperm, hbuffer⟩ := h.buffer
    refine ⟨done, inFlight ++ [chunk], ?_, ?_, hchunks ▸ hbuffer⟩
    · rw [hissued, hdone, List.append_assoc]
    · rw [waiting_cons, hcall] at hperm
      rw [waiting_cons, hrest]
      exact (hperm.append_right [chunk]).trans List.perm_append_comm
  admitted other hother := by
    rcases List.mem_cons.mp hother with rfl | hother
    · exact hnext
    · exact (h.admitted other (List.mem_cons_of_mem call hother)).mono hstate

/-- The first of the chunks that are still to be buffered is buffered. -/
theorem Sound.store (hissued : t.issued = s.issued) (hstate : t.state = s.state)
    (hchunks : t.chunks = some (Session.shift maxBufferedChunks (s.chunks.getD [] ++ [chunk])))
    (hfirst : ∀ other ∈ waiting others, chunk.sequenceNumber ≤ other.sequenceNumber)
    (hcall : call.waiting = some chunk) (hrest : rest.waiting = none) (hnext : Admitted t rest) :
    Sound maxBufferedChunks t (rest :: others) where
  increasing := by
    rw [hissued]
    exact h.increasing
  bounded old hold := by
    rw [hissued] at hold
    have hnumber : lastNumber t = lastNumber s := by rw [lastNumber, hstate, lastNumber]
    rw [hnumber]
    exact h.bounded old hold
  buffer := by
    obtain ⟨done, inFlight, hdone, hperm, hbuffer⟩ := h.buffer
    rw [waiting_cons, hcall, Option.toList_some, List.singleton_append] at hperm
    -- numbers increase, so the chunk with the smallest one is at the head
    obtain ⟨head, tail, rfl⟩ : ∃ head tail, inFlight = head :: tail := by
      cases inFlight with
      | nil => exact absurd (hperm.length_eq) (by simp)
      | cons head tail => exact ⟨head, tail, rfl⟩
    have hincreasing := h.increasing
    rw [hdone] at hincreasing
    have htail := (List.pairwise_cons.mp (List.pairwise_append.mp hincreasing).2.1).1
    have hhead : chunk = head := by
      by_contra hne
      have hin : chunk ∈ head :: tail := hperm.mem_iff.mpr List.mem_cons_self
      have hlt := htail chunk ((List.mem_cons.mp hin).resolve_left hne)
      have hhead : head ∈ chunk :: waiting others := hperm.mem_iff.mp List.mem_cons_self
      have hle := hfirst head ((List.mem_cons.mp hhead).resolve_left (Ne.symm hne))
      exact absurd hle (not_le.mpr hlt)
    subst hhead
    refine ⟨done ++ [chunk], tail, ?_, ?_, ?_⟩
    · rw [hissued, hdone, List.append_assoc, List.singleton_append]
    · rw [waiting_cons, hrest]
      exact hperm.cons_inv
    · rw [hchunks, hbuffer, Option.getD_some]
      exact shift_concat maxBufferedChunks done chunk
  admitted other hother := by
    rcases List.mem_cons.mp hother with rfl | hother
    · exact hnext
    · refine (h.admitted other (List.mem_cons_of_mem call hother)).mono ?_
      rw [hstate]
      exact id

/-- **An access in Redis** that is fresh keeps the invariant. -/
theorem Sound.access {failed : Bool} (hfresh : FreshAccess s call others failed) :
    Sound maxBufferedChunks (s.access maxBufferedChunks failed call).1
      ((s.access maxBufferedChunks failed call).2.toList ++ others) := by
  obtain ⟨task, stage⟩ := call
  obtain ⟨rfl, hfresh⟩ := hfresh
  have hadmitted : Admitted s ⟨task, stage⟩ := h.admitted _ List.mem_cons_self
  cases stage with
  | naming userId messageId =>
    have htask : task = .startStream userId messageId := hadmitted
    subst htask
    cases hstate : s.state with
    | none =>
      have haccess : s.access maxBufferedChunks false ⟨.startStream userId messageId,
          .naming userId messageId⟩ =
          (s, some ⟨.startStream userId messageId, .counting userId⟩) := by
        simp [Session.access, hstate]
      rw [haccess]
      exact h.move rfl rfl le_rfl id rfl (by rintro rest ⟨⟩; exact fun _ _ htask => nomatch htask)
    | some state =>
      have haccess : s.access maxBufferedChunks false ⟨.startStream userId messageId,
          .naming userId messageId⟩ =
          (s, some ⟨.startStream userId messageId, .named userId messageId state⟩) := by
        simp [Session.access, hstate]
      rw [haccess]
      exact h.move rfl rfl le_rfl id rfl (by rintro rest ⟨⟩; rfl)
  | named userId messageId state =>
    have htask : task = .startStream userId messageId := hadmitted
    subst htask
    refine h.move rfl rfl ?_ (fun _ => rfl) rfl ?_
    · -- the number that is stored is written back
      have hnumber : s.state.map (·.sequenceNumber) = some state.sequenceNumber := hfresh
      rw [lastNumber, hnumber]
      exact le_rfl
    · rintro rest ⟨⟩
      exact fun _ _ htask => nomatch htask
  | looking =>
    cases hstate : s.state with
    | none =>
      have haccess : s.access maxBufferedChunks false ⟨task, .looking⟩ = (s, none) := by
        simp [Session.access, hstate]
      rw [haccess]
      exact h.move rfl rfl le_rfl id rfl (by rintro rest ⟨⟩)
    | some state =>
      have haccess : s.access maxBufferedChunks false ⟨task, .looking⟩ =
          (s, some ⟨task, .counting state.userId⟩) := by
        simp [Session.access, hstate]
      rw [haccess]
      refine h.move rfl rfl le_rfl id rfl ?_
      rintro rest ⟨⟩
      exact fun _ _ _ => by simp [hstate]
  | counting userId =>
    cases hstate : s.state with
    | none =>
      have haccess : s.access maxBufferedChunks false ⟨task, .counting userId⟩ =
          s.issue task userId 0 := by
        simp [Session.access, hstate]
      rw [haccess]
      -- a chunk is only sent where a state was found
      cases task with
      | sendChunk messageId content =>
        have hsome := hadmitted messageId content rfl
        rw [hstate] at hsome
        cases hsome
      | startStream _ _ => exact h.move rfl rfl le_rfl id rfl (by rintro rest ⟨⟩; trivial)
      | endStream _ _ => exact h.move rfl rfl le_rfl id rfl (by rintro rest ⟨⟩; trivial)
      | sendError _ _ => exact h.move rfl rfl le_rfl id rfl (by rintro rest ⟨⟩; trivial)
    | some state =>
      have haccess : s.access maxBufferedChunks false ⟨task, .counting userId⟩ =
          (s, some ⟨task, .counted userId state⟩) := by
        simp [Session.access, hstate]
      rw [haccess]
      exact h.move rfl rfl le_rfl id rfl (by rintro rest ⟨⟩; trivial)
  | counted userId state =>
    have hnumber : lastNumber s = state.sequenceNumber := by
      have hnumber : s.state.map (·.sequenceNumber) = some state.sequenceNumber := hfresh
      rw [lastNumber, hnumber]
      rfl
    have hlast : lastNumber s < state.sequenceNumber + 1 := by
      rw [hnumber]
      exact Nat.lt_succ_self _
    cases task with
    | sendChunk messageId content =>
      exact h.issue rfl rfl hlast rfl (fun _ => rfl) rfl rfl trivial
    | startStream _ _ =>
      exact h.move rfl rfl hlast.le (fun _ => rfl) rfl (by rintro rest ⟨⟩; trivial)
    | endStream _ _ =>
      exact h.move rfl rfl hlast.le (fun _ => rfl) rfl (by rintro rest ⟨⟩; trivial)
    | sendError _ _ =>
      exact h.move rfl rfl hlast.le (fun _ => rfl) rfl (by rintro rest ⟨⟩; trivial)
  | buffering userId chunk =>
    exact h.move rfl rfl le_rfl id rfl (by rintro rest ⟨⟩; trivial)
  | buffered userId chunk chunks =>
    obtain ⟨rfl, hfirst⟩ := hfresh
    exact h.store rfl rfl rfl hfirst rfl rfl trivial
  | pushing userId sequenceNumber =>
    exact h.move rfl rfl le_rfl id rfl (by rintro rest ⟨⟩)

end Sound

/-! ## The process -/

/-- In the process no call pauses between reading and writing, and the calls that are about to
buffer a chunk stand in the order of their numbers. -/
structure InTurn (calls : List Call) : Prop where
  reading : ∀ call ∈ calls, call.isWriting = false
  ordered : (waiting calls).Pairwise fun a b => a.sequenceNumber < b.sequenceNumber

theorem FreshAccess.of_reading (h : call.isWriting = false) : FreshAccess s call others false := by
  refine ⟨rfl, ?_⟩
  unfold Call.isWriting at h
  cases hstage : call.stage <;> simp [hstage] at h ⊢

/-- What is written back at once is fresh. -/
theorem FreshAccess.of_settle (hreading : call.isWriting = false)
    (hrest : (s.access maxBufferedChunks false call).2 = some rest)
    (hwriting : rest.isWriting = true)
    (hfirst : ∀ chunk ∈ call.waiting, ∀ other ∈ waiting others,
      chunk.sequenceNumber ≤ other.sequenceNumber) :
    FreshAccess (s.access maxBufferedChunks false call).1 rest others false := by
  obtain ⟨task, stage⟩ := call
  refine ⟨rfl, ?_⟩
  cases stage with
  | naming userId messageId =>
    cases hstate : s.state <;>
      simp only [Session.access, hstate, Bool.false_eq_true, if_false] at hrest
    · cases hrest
      cases hwriting
    · cases hrest
      simp [Session.access, hstate]
  | looking =>
    cases hstate : s.state <;>
      simp only [Session.access, hstate, Bool.false_eq_true, if_false] at hrest
    · cases hrest
    · cases hrest
      cases hwriting
  | counting userId =>
    cases hstate : s.state <;>
      simp only [Session.access, hstate, Bool.false_eq_true, if_false] at hrest
    · cases task <;> obtain rfl := Option.some.inj hrest <;> cases hwriting
    · cases hrest
      simp [Session.access, hstate]
  | buffering userId chunk =>
    cases hrest
    exact ⟨rfl, hfirst chunk rfl⟩
  | pushing userId sequenceNumber => cases hrest
  | named userId messageId state => cases hreading
  | counted userId state => cases hreading
  | buffered userId chunk chunks => cases hreading

/-- What is left of a call in the process: it reads next, and a chunk that it is about to buffer was
given a number just now. -/
theorem settle_next (hreading : call.isWriting = false) (hadmitted : Admitted s call)
    (hrest : (s.settle maxBufferedChunks call).2 = some rest) :
    rest.isWriting = false ∧ ∀ chunk ∈ rest.waiting, lastNumber s < chunk.sequenceNumber := by
  obtain ⟨task, stage⟩ := call
  cases stage with
  | naming userId messageId =>
    cases hstate : s.state <;>
      simp [Session.settle, Session.access, hstate, Call.isWriting] at hrest <;>
      subst hrest <;> exact ⟨rfl, nofun⟩
  | looking =>
    cases hstate : s.state <;>
      simp [Session.settle, Session.access, hstate, Call.isWriting] at hrest
    subst hrest
    exact ⟨rfl, nofun⟩
  | counting userId =>
    cases hstate : s.state with
    | none =>
      cases task with
      | sendChunk messageId content =>
        have hsome := hadmitted messageId content rfl
        rw [hstate] at hsome
        cases hsome
      | _ =>
        simp [Session.settle, Session.access, hstate, Session.issue, Call.isWriting] at hrest
        subst hrest
        exact ⟨rfl, nofun⟩
    | some state =>
      cases task with
      | sendChunk messageId content =>
        simp [Session.settle, Session.access, hstate, Session.issue, Call.isWriting] at hrest
        subst hrest
        refine ⟨rfl, ?_⟩
        rintro chunk ⟨⟩
        simp [lastNumber, hstate]
      | _ =>
        simp [Session.settle, Session.access, hstate, Session.issue, Call.isWriting] at hrest
        subst hrest
        exact ⟨rfl, nofun⟩
  | buffering userId chunk =>
    cases hrest
    exact ⟨rfl, nofun⟩
  | pushing userId sequenceNumber => cases hrest
  | named userId messageId state => cases hreading
  | counted userId state => cases hreading
  | buffered userId chunk chunks => cases hreading

/-- **A turn in the process** keeps the invariant, and the order of the calls. -/
theorem Sound.settle (h : Sound maxBufferedChunks s (call :: others))
    (hturn : InTurn (call :: others)) :
    Sound maxBufferedChunks (s.settle maxBufferedChunks call).1
      (others ++ (s.settle maxBufferedChunks call).2.toList) ∧
    InTurn (others ++ (s.settle maxBufferedChunks call).2.toList) := by
  have hreading : call.isWriting = false := hturn.reading call List.mem_cons_self
  have hordered := hturn.ordered
  rw [waiting_cons, List.pairwise_append] at hordered
  have hread := h.access (FreshAccess.of_reading hreading)
  refine ⟨?_, ?_, ?_⟩
  · refine Sound.perm ?_ List.perm_append_comm
    unfold Session.settle
    dsimp only
    cases hrest : (s.access maxBufferedChunks false call).2 with
    | none =>
      rw [hrest] at hread
      rw [hrest]
      exact hread
    | some rest =>
      rw [hrest] at hread
      dsimp only
      split_ifs with hwriting
      · refine Sound.access hread (.of_settle hreading hrest hwriting ?_)
        intro chunk hchunk other hother
        exact (hordered.2.2 chunk (Option.mem_toList.mpr hchunk) other hother).le
      · rw [hrest]
        exact hread
  · intro other hother
    rcases List.mem_append.mp hother with hother | hrest
    · exact hturn.reading other (List.mem_cons_of_mem call hother)
    · exact (settle_next hreading (h.admitted call List.mem_cons_self)
        (Option.mem_toList.mp hrest)).1
  · rw [waiting_append]
    refine List.pairwise_append.mpr ⟨hordered.2.1, ?_, ?_⟩
    · cases (s.settle maxBufferedChunks call).2 with
      | none => exact .nil
      | some rest =>
        rw [Option.toList_some, waiting_cons]
        cases rest.waiting with
        | none => exact .nil
        | some chunk => exact List.pairwise_singleton _ chunk
    · -- a new number is above those that are waiting
      intro old hold new hnew
      obtain ⟨rest, hrest, hchunk⟩ := List.mem_filterMap.mp hnew
      have hlast := (settle_next hreading (h.admitted call List.mem_cons_self)
        (Option.mem_toList.mp hrest)).2 new hchunk
      have hold : old ∈ s.issued := by
        apply h.waiting_mem
        rw [waiting_cons]
        exact List.mem_append_right _ hold
      exact (h.bounded old hold).trans_lt hlast

end Invariant

/-! ## Runs of a stream -/

section Runs

variable {store : Store} {maxBufferedChunks : ℕ} {c d : ChatStream} {e : Event} {es : List Event}

theorem Sound.initial (userId : Option String) :
    Sound maxBufferedChunks (ChatStream.initial userId).session
      (ChatStream.initial userId).calls where
  increasing := .nil
  bounded := nofun
  buffer := by
    refine ⟨[], [], rfl, .nil, ?_⟩
    rw [List.drop_nil]
    cases userId <;> rfl
  admitted := nofun

theorem Sound.start {s : Session} {calls : List Call} (h : Sound maxBufferedChunks s calls)
    (task : Task) : Sound maxBufferedChunks s (⟨task, task.first⟩ :: calls) where
  increasing := h.increasing
  bounded := h.bounded
  buffer := by
    rw [waiting_cons]
    cases task <;> exact h.buffer
  admitted call hcall := by
    rcases List.mem_cons.mp hcall with rfl | hcall
    · cases task <;> first | rfl | trivial
    · exact h.admitted call hcall

theorem InTurn.start {calls : List Call} (h : InTurn calls) (task : Task) :
    InTurn (⟨task, task.first⟩ :: calls) where
  reading call hcall := by
    rcases List.mem_cons.mp hcall with rfl | hcall
    · cases task <;> rfl
    · exact h.reading call hcall
  ordered := by
    rw [waiting_cons]
    cases task <;> exact h.ordered

/-- What holds along a run. -/
def Steady (store : Store) (maxBufferedChunks : ℕ) (c : ChatStream) : Prop :=
  Sound maxBufferedChunks c.session c.calls ∧ (store = .memory → InTurn c.calls)

/-- **The step lemma.** -/
theorem Steady.next (h : Steady store maxBufferedChunks c)
    (hs : c.next store maxBufferedChunks e = some d) (hfresh : Fresh store c e) :
    Steady store maxBufferedChunks d := by
  obtain ⟨hsound, hturn⟩ := h
  cases e with
  | start task =>
    cases store with
    | memory =>
      cases hs
      obtain ⟨hsound, hturn⟩ := (hsound.start task).settle ((hturn rfl).start task)
      exact ⟨hsound, fun _ => hturn⟩
    | redis =>
      cases hs
      refine ⟨(hsound.start task).perm ?_, nofun⟩
      exact (List.perm_append_singleton _ c.calls).symm
  | resume position failed =>
    cases store with
    | memory =>
      obtain ⟨session, calls⟩ := c
      cases calls with
      | nil => cases hs
      | cons call others =>
        simp only [ChatStream.next] at hs
        split_ifs at hs
        cases hs
        obtain ⟨hsound, hturn⟩ := hsound.settle (hturn rfl)
        exact ⟨hsound, fun _ => hturn⟩
    | redis =>
      obtain ⟨call, hcall, rfl⟩ := Option.map_eq_some_iff.mp hs
      obtain ⟨hlt, hget⟩ := List.getElem?_eq_some_iff.mp hcall
      have hperm : c.calls.Perm (call :: c.calls.eraseIdx position) := by
        rw [← hget]
        exact (List.getElem_cons_eraseIdx_perm hlt).symm
      refine ⟨((hsound.perm hperm).access (hfresh rfl call hcall)).perm ?_, nofun⟩
      exact List.perm_append_comm

theorem Sound.replayable (h : Sound maxBufferedChunks c.session c.calls) :
    Replayable maxBufferedChunks c := by
  obtain ⟨done, inFlight, hissued, hperm, hbuffer⟩ := h.buffer
  refine ⟨h.increasing, done, inFlight, hissued, hperm, hbuffer, ?_⟩
  intro last
  have hafter : c.session.getChunksAfter last =
      (done.drop (done.length - maxBufferedChunks)).filter
        fun chunk => last < (chunk.sequenceNumber : ℤ) := by
    rw [Session.getChunksAfter, hbuffer]
  refine ⟨?_, fun chunk => ?_⟩
  · rw [hafter]
    have hincreasing := h.increasing
    rw [hissued] at hincreasing
    exact ((List.pairwise_append.mp hincreasing).1.sublist (List.drop_sublist _ _)).filter _
  · rw [hafter, List.mem_filter, decide_eq_true_eq]

/-- **Replay.** In the process a stream is replayable after every interleaving of its calls. In
Redis it is along every run whose accesses are fresh. -/
theorem replayable_run {userId : Option String}
    (h : ((chatStream store maxBufferedChunks).restrict fun c e _ => Fresh store c e).Run
      (.initial userId) es c) : Replayable maxBufferedChunks c := by
  have hsteady : Steady store maxBufferedChunks c :=
    h.history_invariant (I := fun _ => Steady store maxBufferedChunks)
      ⟨.initial userId, fun _ => ⟨nofun, .nil⟩⟩ fun hc hs => hc.next hs.1 hs.2
  exact hsteady.1.replayable

/-- Two chunks sent one after the other, with room for one. -/
theorem replayable_run_sequential : ∃ c, Replayable 1 c ∧
    c.session.issued = [⟨1, "a"⟩, ⟨2, "b"⟩] ∧ c.session.chunks = some [⟨2, "b"⟩] := by
  obtain ⟨c, hrun, hissued, hchunks⟩ : ∃ c, ((chatStream .redis 1).restrict
      fun c e _ => Fresh .redis c e).Run (.initial (some "u"))
      [.start (.sendChunk "m" "a"), .resume 0 false, .resume 0 false, .resume 0 false,
        .resume 0 false, .resume 0 false, .start (.sendChunk "m" "b"), .resume 1 false,
        .resume 1 false, .resume 1 false, .resume 1 false, .resume 1 false] c ∧
      c.session.issued = [⟨1, "a"⟩, ⟨2, "b"⟩] ∧ c.session.chunks = some [⟨2, "b"⟩] := by
    refine ⟨_, .restrict_cons rfl trivial <| .restrict_cons rfl ?_ <| .restrict_cons rfl ?_ <|
      .restrict_cons rfl ?_ <| .restrict_cons rfl ?_ <| .restrict_cons rfl ?_ <|
      .restrict_cons rfl trivial <| .restrict_cons rfl ?_ <| .restrict_cons rfl ?_ <|
      .restrict_cons rfl ?_ <| .restrict_cons rfl ?_ <| .restrict_cons rfl ?_ .nil, rfl, rfl⟩
    all_goals rintro - call ⟨⟩
    · exact ⟨rfl, trivial⟩
    · exact ⟨rfl, trivial⟩
    · exact ⟨rfl, rfl⟩
    · exact ⟨rfl, trivial⟩
    · exact ⟨rfl, rfl, nofun⟩
    · exact ⟨rfl, trivial⟩
    · exact ⟨rfl, trivial⟩
    · exact ⟨rfl, rfl⟩
    · exact ⟨rfl, trivial⟩
    · exact ⟨rfl, rfl, nofun⟩
  exact ⟨c, replayable_run hrun, hissued, hchunks⟩

/-- **Calls that overlap in Redis.** Two calls read the same state, and their chunks have the same
number. Two calls read the same buffer, and one of their chunks is not in it. -/
theorem not_replayable :
    (∃ c, (chatStream .redis 10).Run (.initial (some "u"))
      [.start (.sendChunk "m" "a"), .start (.sendChunk "m" "b"), .resume 0 false, .resume 0 false,
        .resume 0 false, .resume 0 false, .resume 0 false, .resume 0 false] c ∧
      c.session.issued = [⟨1, "a"⟩, ⟨1, "b"⟩] ∧ ¬ Replayable 10 c) ∧
    ∃ c, (chatStream .redis 10).Run (.initial (some "u"))
      [.start (.sendChunk "m" "a"), .resume 0 false, .resume 0 false, .resume 0 false,
        .start (.sendChunk "m" "b"), .resume 1 false, .resume 1 false, .resume 1 false,
        .resume 0 false, .resume 0 false, .resume 0 false, .resume 0 false, .resume 0 false,
        .resume 0 false] c ∧
      c.calls = [] ∧ c.session.issued = [⟨1, "a"⟩, ⟨2, "b"⟩] ∧
      c.session.chunks = some [⟨2, "b"⟩] ∧ ¬ Replayable 10 c := by
  refine ⟨⟨_, Transition.System.run_of_follow id rfl, rfl, ?_⟩,
    ⟨_, Transition.System.run_of_follow id rfl, rfl, rfl, rfl, ?_⟩⟩
  · rintro ⟨hincreasing, -⟩
    have hlt : (1 : ℕ) < 1 :=
      (List.pairwise_cons.mp hincreasing).1 ⟨1, "b"⟩ (List.mem_singleton.mpr rfl)
    exact absurd hlt (Nat.lt_irrefl 1)
  · rintro ⟨-, done, inFlight, hissued, hperm, hbuffer, -⟩
    -- nothing is in flight, so that both chunks have to be in the buffer
    have hnone : inFlight = [] := hperm.eq_nil
    subst hnone
    have hdone : done = [⟨1, "a"⟩, ⟨2, "b"⟩] := by
      rw [List.append_nil] at hissued
      exact hissued.symm
    subst hdone
    cases hbuffer

end Runs

end N8n.ChatHub
