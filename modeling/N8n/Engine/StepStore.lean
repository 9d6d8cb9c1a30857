import N8n.Common.JsonValue
import Mathlib.Data.List.Basic
import Mathlib.Data.List.Nodup
import Mathlib.Data.List.MinMax
import Std.Data.String.ToNat

/-!
# The step store

The rows of one execution and the store's operations on them. Every operation is atomic. A row
never changes its key, and once it has settled it never changes at all.

The store filters by execution in every operation, so the table holds the rows of one execution
only. Row ids are fresh, hence a counter.

## Main definitions

* `StepStatus`, `StepKey`, `StepRecord`, `StepSummary`: a row and the planning view of it
* `StepTable`: the rows of one execution, with the operations `createSteps`, `claimStep`,
  `completeStep`, `failStep`, `cancelQueuedSteps` and the reads
* `StepTable.Extends`: what one table keeps of an earlier one

## Main results

* `stepKeyId_injective`: the string form of a key determines it
* `StepTable.extends_createSteps` and its siblings: every operation extends the table
* `StepTable.exists_created`: what a batch of new steps adds
-/

namespace N8n.Engine

inductive StepStatus
  | queued
  | running
  | completed
  | failed
  | skipped
  | cancelled
  deriving DecidableEq

def isSettledStatus : StepStatus → Bool
  | .completed | .failed | .skipped | .cancelled => true
  | .queued | .running => false

structure StepKey where
  nodeId : String
  iteration : ℕ
  deriving DecidableEq

def stepKeyId (key : StepKey) : String :=
  key.nodeId ++ "@" ++ toString key.iteration

abbrev StepSlots := List JsonValue

structure StepError where
  name : String
  message : String
  stack : Option String
  details : Option JsonValue

structure StepRecord extends StepKey where
  id : ℕ
  status : StepStatus
  outputs : Option StepSlots
  error : Option StepError

/-- The planning view of a row: which output slots hold data, not what they hold. -/
structure StepSummary extends StepKey where
  id : ℕ
  status : StepStatus
  filledOutputSlots : List Bool

/-- The statuses a row may be created with; only a completed one carries outputs. -/
inductive CreationStatus
  | queued
  | skipped
  | completed (outputs : StepSlots)

structure NewStepRecord extends StepKey where
  status : CreationStatus

namespace StepRecord

/-- The `FILLED_OUTPUT_SLOTS` fragment: a slot is filled unless it is `null`. -/
def filledOutputSlots (row : StepRecord) : List Bool :=
  (row.outputs.getD []).map fun slot => !slot.isNull

def summary (row : StepRecord) : StepSummary where
  toStepKey := row.toStepKey
  id := row.id
  status := row.status
  filledOutputSlots := row.filledOutputSlots

def Settled (row : StepRecord) : Prop := isSettledStatus row.status = true

instance (row : StepRecord) : Decidable row.Settled := inferInstanceAs (Decidable (_ = true))

theorem cancelled_of_settled {row : StepRecord} (h : row.Settled) (hf : row.status ≠ .failed)
    (hd : ¬ (row.status = .completed ∨ row.status = .skipped)) : row.status = .cancelled := by
  unfold Settled at h
  cases hs : row.status <;> simp_all [isSettledStatus]

end StepRecord

def NewStepRecord.row (record : NewStepRecord) (id : ℕ) : StepRecord where
  toStepKey := record.toStepKey
  id
  status := match record.status with
    | .queued => .queued
    | .skipped => .skipped
    | .completed _ => .completed
  outputs := match record.status with
    | .completed outputs => some outputs
    | _ => none
  error := none

/-- The rows of one execution, and the next fresh id. The primary key and the unique index on node
and iteration are part of the table. -/
structure StepTable where
  rows : List StepRecord
  nextId : ℕ
  nodup_ids : (rows.map StepRecord.id).Nodup
  nodup_keys : (rows.map StepRecord.toStepKey).Nodup
  id_lt : ∀ row ∈ rows, row.id < nextId

/-- Rows looked up by the string form of their key. -/
abbrev StepsById := String → Option StepSummary

namespace StepTable

def empty : StepTable := ⟨[], 0, List.nodup_nil, List.nodup_nil, by simp⟩

variable (table : StepTable)

/-! ## Reads -/

def hasFailedSteps : Bool := table.rows.any fun row => row.status = .failed

def countSettledSteps : ℕ := table.rows.countP fun row => isSettledStatus row.status

def loadStep (id : ℕ) : Option StepRecord := table.rows.find? fun row => row.id = id

def at? (key : StepKey) : Option StepRecord := table.rows.find? fun row => row.toStepKey = key

def loadStepSummariesByKeys (keys : List StepKey) : StepsById := fun id =>
  ((table.rows.find? fun row => row.toStepKey ∈ keys ∧ stepKeyId row.toStepKey = id)).map
    StepRecord.summary

/-- The highest-iteration row of a node, for the nodes asked about. -/
def loadLatestStepSummaries (nodeIds : List String) (nodeId : String) : Option StepSummary :=
  if nodeId ∈ nodeIds then
    ((table.rows.filter fun row => row.nodeId = nodeId).argmax fun row => row.iteration).map
      StepRecord.summary
  else none

/-! ## Writes -/

def insert (record : NewStepRecord) (h : ∀ row ∈ table.rows, row.toStepKey ≠ record.toStepKey) :
    StepTable where
  rows := table.rows ++ [record.row table.nextId]
  nextId := table.nextId + 1
  nodup_ids := by
    rw [List.map_append, List.nodup_append]
    refine ⟨table.nodup_ids, by simp, ?_⟩
    simp only [List.mem_map, List.map_cons, List.map_nil, List.mem_singleton, forall_eq]
    rintro _ ⟨row, hr, rfl⟩
    exact (table.id_lt row hr).ne
  nodup_keys := by
    rw [List.map_append, List.nodup_append]
    refine ⟨table.nodup_keys, by simp, ?_⟩
    simp only [List.mem_map, List.map_cons, List.map_nil, List.mem_singleton, forall_eq]
    rintro _ ⟨row, hr, rfl⟩
    exact h row hr
  id_lt := by
    intro row hr
    rcases List.mem_append.mp hr with hr | hr
    · exact (table.id_lt row hr).trans (Nat.lt_succ_self _)
    · rw [List.mem_singleton.mp hr]
      exact Nat.lt_succ_self _

/-- Insert one record unless its key is taken; `acc.2` are the rows inserted so far. -/
def insertOrIgnore (acc : StepTable × List StepRecord) (record : NewStepRecord) :
    StepTable × List StepRecord :=
  if h : ∀ row ∈ acc.1.rows, row.toStepKey ≠ record.toStepKey then
    (acc.1.insert record h, acc.2 ++ [record.row acc.1.nextId])
  else acc

/-- Create the records whose keys are free, in one batch, unless a step has failed. -/
def createSteps (records : List NewStepRecord) : StepTable × List StepRecord :=
  if table.hasFailedSteps then (table, [])
  else records.foldl insertOrIgnore (table, [])

/-- Update columns other than the key of the rows that meet a condition. -/
def updateWhere (cond : StepRecord → Bool) (set : StepRecord → StepRecord)
    (hid : ∀ row, (set row).id = row.id) (hkey : ∀ row, (set row).toStepKey = row.toStepKey) :
    StepTable where
  rows := table.rows.map fun row => if cond row then set row else row
  nextId := table.nextId
  nodup_ids := by
    rw [List.map_map]
    convert table.nodup_ids using 2
    funext row
    simp only [Function.comp_apply]
    split_ifs <;> simp [hid]
  nodup_keys := by
    rw [List.map_map]
    convert table.nodup_keys using 2
    funext row
    simp only [Function.comp_apply]
    split_ifs <;> simp [hkey]
  id_lt := by
    intro row hr
    obtain ⟨old, ho, rfl⟩ := List.mem_map.mp hr
    split_ifs
    · exact hid old ▸ table.id_lt old ho
    · exact table.id_lt old ho

/-- Claim a queued step, unless a step has failed. The claimed row is returned. -/
def claimStep (id : ℕ) : StepTable × Option StepRecord :=
  if table.hasFailedSteps then (table, none)
  else
    (table.updateWhere (fun row => row.id = id ∧ row.status = .queued)
        (fun row => { row with status := .running }) (fun _ => rfl) fun _ => rfl,
      (table.rows.find? fun row => row.id = id ∧ row.status = .queued).map fun row =>
        { row with status := .running })

/-- Record the outcome of a running step; `false` if the caller no longer holds the claim. -/
def completeStep (id : ℕ) (outputs : StepSlots) : StepTable × Bool :=
  (table.updateWhere (fun row => row.id = id ∧ row.status = .running)
      (fun row => { row with status := .completed, outputs := some outputs })
      (fun _ => rfl) fun _ => rfl,
    (table.rows.countP fun row => row.id = id ∧ row.status = .running) = 1)

def failStep (id : ℕ) (error : StepError) : StepTable × Bool :=
  (table.updateWhere (fun row => row.id = id ∧ row.status = .running)
      (fun row => { row with status := .failed, error := some error })
      (fun _ => rfl) fun _ => rfl,
    (table.rows.countP fun row => row.id = id ∧ row.status = .running) = 1)

def cancelQueuedSteps : StepTable :=
  table.updateWhere (fun row => row.status = .queued) (fun row => { row with status := .cancelled })
    (fun _ => rfl) fun _ => rfl

end StepTable

/-! ## The string form of a key -/

theorem stepKeyId_toList (key : StepKey) :
    (stepKeyId key).toList = key.nodeId.toList ++ '@' :: (toString key.iteration).toList := by
  simp [stepKeyId, String.toList_append]

theorem at_not_mem_digits (n : ℕ) : '@' ∉ (toString n).toList := by
  intro h
  have hd : (Nat.repr n).toList = Nat.toDigits 10 n := by simp [Nat.repr]
  have := Nat.isDigit_of_mem_toDigits (by decide) (by decide) (hd ▸ h : '@' ∈ Nat.toDigits 10 n)
  simp at this

/-- What follows the last `@` of a list that ends in `@` and text without one. -/
theorem takeWhile_reverse {l m : List Char} (h : '@' ∉ m) :
    (l ++ '@' :: m).reverse.takeWhile (· ≠ '@') = m.reverse := by
  rw [List.reverse_append, List.reverse_cons, List.append_assoc,
    List.takeWhile_append_of_pos fun c hc => ?_]
  · simp
  · have : c ≠ '@' := fun he => h (he ▸ List.mem_reverse.mp hc)
    simpa using this

/-- **The string form of a key determines it**: the iteration is what follows the last `@`. -/
theorem stepKeyId_injective : Function.Injective stepKeyId := by
  rintro ⟨node, i⟩ ⟨node', i'⟩ h
  have hl : node.toList ++ '@' :: (toString i).toList = node'.toList ++ '@' :: (toString i').toList := by
    rw [← stepKeyId_toList ⟨node, i⟩, ← stepKeyId_toList ⟨node', i'⟩, h]
  have hi : (toString i).toList = (toString i').toList := by
    have := congrArg (fun l => l.reverse.takeWhile (· ≠ '@')) hl
    simp only [takeWhile_reverse (at_not_mem_digits i),
      takeWhile_reverse (at_not_mem_digits i')] at this
    exact List.reverse_injective this
  rw [hi] at hl
  have hn : node = node' := String.toList_injective (List.append_cancel_right hl)
  have hii : i = i' := Nat.repr_injective (String.toList_injective hi)
  rw [hn, hii]

@[simp] theorem stepKeyId_inj {k k' : StepKey} : stepKeyId k = stepKeyId k' ↔ k = k' :=
  stepKeyId_injective.eq_iff

/-! ## What the reads return -/

namespace StepTable

variable {table : StepTable} {row row' : StepRecord}

theorem eq_of_key (h : row ∈ table.rows) (h' : row' ∈ table.rows)
    (hk : row.toStepKey = row'.toStepKey) : row = row' :=
  List.inj_on_of_nodup_map table.nodup_keys h h' hk

theorem eq_of_id (h : row ∈ table.rows) (h' : row' ∈ table.rows) (hi : row.id = row'.id) :
    row = row' :=
  List.inj_on_of_nodup_map table.nodup_ids h h' hi

theorem hasFailedSteps_iff :
    table.hasFailedSteps = true ↔ ∃ row ∈ table.rows, row.status = .failed := by
  simp [hasFailedSteps]

theorem loadStep_eq_some {id : ℕ} {row : StepRecord} :
    table.loadStep id = some row ↔ row ∈ table.rows ∧ row.id = id := by
  constructor
  · intro h
    exact ⟨List.mem_of_find?_eq_some h, by simpa using List.find?_some h⟩
  · rintro ⟨hr, rfl⟩
    cases hf : table.loadStep row.id with
    | none => simpa using List.find?_eq_none.mp hf row hr
    | some row' =>
      have hi : row'.id = row.id := by simpa using List.find?_some hf
      rw [eq_of_id (List.mem_of_find?_eq_some hf) hr hi]

theorem at?_eq_some {key : StepKey} {row : StepRecord} :
    table.at? key = some row ↔ row ∈ table.rows ∧ row.toStepKey = key := by
  constructor
  · intro h
    exact ⟨List.mem_of_find?_eq_some h, by simpa using List.find?_some h⟩
  · rintro ⟨hr, rfl⟩
    cases hf : table.at? row.toStepKey with
    | none => simpa using List.find?_eq_none.mp hf row hr
    | some row' =>
      have hk : row'.toStepKey = row.toStepKey := by simpa using List.find?_some hf
      rw [eq_of_key (List.mem_of_find?_eq_some hf) hr hk]

/-- A loaded view answers for the keys it was asked for as the table does. -/
theorem loadStepSummariesByKeys_apply {keys : List StepKey} {key : StepKey} (h : key ∈ keys) :
    table.loadStepSummariesByKeys keys (stepKeyId key) =
      (table.at? key).map StepRecord.summary := by
  unfold loadStepSummariesByKeys at?
  congr 2
  funext row
  simp only [stepKeyId_inj, decide_eq_decide]
  exact ⟨fun hr => hr.2, fun hr => ⟨hr ▸ h, hr⟩⟩

theorem loadLatestStepSummaries_eq_some {nodeIds : List String} {nodeId : String}
    {summary : StepSummary} :
    table.loadLatestStepSummaries nodeIds nodeId = some summary ↔ nodeId ∈ nodeIds ∧
      ∃ row ∈ table.rows, row.nodeId = nodeId ∧ row.summary = summary ∧
        ∀ row' ∈ table.rows, row'.nodeId = nodeId → row'.iteration ≤ row.iteration := by
  unfold loadLatestStepSummaries
  split_ifs with hn
  · simp only [hn, true_and, Option.map_eq_some_iff]
    constructor
    · rintro ⟨row, hr, rfl⟩
      have hm := List.mem_filter.mp (List.argmax_mem hr)
      refine ⟨row, hm.1, by simpa using hm.2, rfl, fun row' hr' hn' => ?_⟩
      have hm' : row' ∈ table.rows.filter fun row => row.nodeId = nodeId :=
        List.mem_filter.mpr ⟨hr', by simpa using hn'⟩
      exact @List.le_of_mem_argmax _ _ _ (fun row => row.iteration) _ _ _ hm' hr
    · rintro ⟨row, hr, hrn, rfl, hmax⟩
      refine ⟨row, ?_, rfl⟩
      have hmem : row ∈ table.rows.filter fun row => row.nodeId = nodeId :=
        List.mem_filter.mpr ⟨hr, by simpa using hrn⟩
      cases ha : (table.rows.filter fun row => row.nodeId = nodeId).argmax
          fun row => row.iteration with
      | none => rw [List.argmax_eq_none.mp ha] at hmem; cases hmem
      | some row' =>
        have hm := List.mem_filter.mp (List.argmax_mem ha)
        have hn' : row'.nodeId = nodeId := by simpa using hm.2
        have hle : row.iteration ≤ row'.iteration :=
          @List.le_of_mem_argmax _ _ _ (fun row => row.iteration) _ _ _ hmem ha
        have hi : row'.iteration = row.iteration := le_antisymm (hmax row' hm.1 hn') hle
        have hk : row'.toStepKey = row.toStepKey := by
          rw [show row'.toStepKey = ⟨row'.nodeId, row'.iteration⟩ from rfl, hi, hn', ← hrn]
        rw [eq_of_key hm.1 hr hk]
  · simp [hn]

end StepTable

/-! ## Growth -/

/-- What a row may become: its key stays, and so does all of it once it has settled. -/
structure StepRecord.Evolves (row row' : StepRecord) : Prop where
  id : row'.id = row.id
  key : row'.toStepKey = row.toStepKey
  settled : row.Settled → row' = row
  started : row.status ≠ .queued → row'.status ≠ .queued

namespace StepRecord.Evolves

theorem refl (row : StepRecord) : row.Evolves row := ⟨rfl, rfl, fun _ => rfl, fun h => h⟩

theorem trans {row row' row'' : StepRecord} (h : row.Evolves row') (h' : row'.Evolves row'') :
    row.Evolves row'' where
  id := h'.id.trans h.id
  key := h'.key.trans h.key
  settled hs := by
    obtain rfl := h.settled hs
    exact h'.settled hs
  started hq := h'.started (h.started hq)

end StepRecord.Evolves

namespace StepTable

/-- What a later table keeps of an earlier one. -/
structure Extends (table table' : StepTable) : Prop where
  row : ∀ row ∈ table.rows, ∃ row' ∈ table'.rows, row.Evolves row'
  nextId : table.nextId ≤ table'.nextId

namespace Extends

variable {table table' table'' : StepTable}

theorem refl (table : StepTable) : table.Extends table :=
  ⟨fun row hr => ⟨row, hr, .refl row⟩, le_rfl⟩

theorem trans (h : table.Extends table') (h' : table'.Extends table'') :
    table.Extends table'' := by
  refine ⟨fun row hr => ?_, h.nextId.trans h'.nextId⟩
  obtain ⟨row', hr', he⟩ := h.row row hr
  obtain ⟨row'', hr'', he'⟩ := h'.row row' hr'
  exact ⟨row'', hr'', he.trans he'⟩

theorem settled (h : table.Extends table') {row : StepRecord} (hr : row ∈ table.rows)
    (hs : row.Settled) : row ∈ table'.rows := by
  obtain ⟨row', hr', he⟩ := h.row row hr
  exact he.settled hs ▸ hr'

theorem hasFailedSteps (h : table.Extends table') (hf : table.hasFailedSteps = true) :
    table'.hasFailedSteps = true := by
  obtain ⟨row, hr, hs⟩ := hasFailedSteps_iff.mp hf
  exact hasFailedSteps_iff.mpr ⟨row, h.settled hr (by simp [StepRecord.Settled, hs,
    isSettledStatus]), hs⟩

theorem key (h : table.Extends table') {row : StepRecord} (hr : row ∈ table.rows) :
    ∃ row' ∈ table'.rows, row'.toStepKey = row.toStepKey := by
  obtain ⟨row', hr', he⟩ := h.row row hr
  exact ⟨row', hr', he.key⟩

end Extends

section Updates

variable {table : StepTable} {cond : StepRecord → Bool} {set : StepRecord → StepRecord}
  (hid : ∀ row, (set row).id = row.id) (hkey : ∀ row, (set row).toStepKey = row.toStepKey)

theorem mem_updateWhere {row' : StepRecord} :
    row' ∈ (table.updateWhere cond set hid hkey).rows ↔
      ∃ row ∈ table.rows, (if cond row then set row else row) = row' := List.mem_map

/-- An update touches unsettled rows only, and none becomes queued by it. -/
theorem extends_updateWhere
    (h : ∀ row, cond row = true → ¬ row.Settled ∧ (set row).status ≠ .queued) :
    table.Extends (table.updateWhere cond set hid hkey) := by
  refine ⟨fun row hr => ⟨_, (mem_updateWhere hid hkey).mpr ⟨row, hr, rfl⟩, ?_⟩, le_rfl⟩
  split_ifs with hc
  · exact ⟨hid row, hkey row, fun hs => absurd hs (h row hc).1, fun _ => (h row hc).2⟩
  · exact .refl row

theorem updateWhere_keys :
    (table.updateWhere cond set hid hkey).rows.map StepRecord.toStepKey =
      table.rows.map StepRecord.toStepKey := by
  change (table.rows.map _).map _ = _
  rw [List.map_map]
  congr 1
  funext row
  simp only [Function.comp_apply]
  split_ifs <;> simp [hkey]

end Updates

variable (table : StepTable)

theorem extends_claimStep (id : ℕ) : table.Extends (table.claimStep id).1 := by
  unfold claimStep
  split_ifs
  · exact .refl table
  · refine extends_updateWhere ?_ ?_ fun row hc => ?_
    · exact fun _ => rfl
    · exact fun _ => rfl
    have hq : row.status = .queued := (by simpa using hc : row.id = id ∧ _).2
    simp [StepRecord.Settled, hq, isSettledStatus]

theorem extends_completeStep (id : ℕ) (outputs : StepSlots) :
    table.Extends (table.completeStep id outputs).1 := by
  refine extends_updateWhere ?_ ?_ fun row hc => ?_
  · exact fun _ => rfl
  · exact fun _ => rfl
  have hq : row.status = .running := (by simpa using hc : row.id = id ∧ _).2
  simp [StepRecord.Settled, hq, isSettledStatus]

theorem extends_failStep (id : ℕ) (error : StepError) :
    table.Extends (table.failStep id error).1 := by
  refine extends_updateWhere ?_ ?_ fun row hc => ?_
  · exact fun _ => rfl
  · exact fun _ => rfl
  have hq : row.status = .running := (by simpa using hc : row.id = id ∧ _).2
  simp [StepRecord.Settled, hq, isSettledStatus]

theorem extends_cancelQueuedSteps : table.Extends table.cancelQueuedSteps := by
  refine extends_updateWhere _ _ fun row hc => ?_
  have hq : row.status = .queued := by simpa using hc
  simp [StepRecord.Settled, hq, isSettledStatus]

theorem claimStep_keys (id : ℕ) : (table.claimStep id).1.rows.map StepRecord.toStepKey =
    table.rows.map StepRecord.toStepKey := by
  unfold claimStep
  split_ifs
  · rfl
  · refine updateWhere_keys ?_ ?_ <;> exact fun _ => rfl

theorem completeStep_keys (id : ℕ) (outputs : StepSlots) :
    (table.completeStep id outputs).1.rows.map StepRecord.toStepKey =
      table.rows.map StepRecord.toStepKey := by
  refine updateWhere_keys ?_ ?_ <;> exact fun _ => rfl

theorem failStep_keys (id : ℕ) (error : StepError) :
    (table.failStep id error).1.rows.map StepRecord.toStepKey =
      table.rows.map StepRecord.toStepKey := by
  refine updateWhere_keys ?_ ?_ <;> exact fun _ => rfl

theorem cancelQueuedSteps_keys : table.cancelQueuedSteps.rows.map StepRecord.toStepKey =
    table.rows.map StepRecord.toStepKey := by
  refine updateWhere_keys ?_ ?_

/-! ## A batch of new steps -/

/-- What the batch insert does after `acc`: `new` are the rows it adds. -/
theorem foldl_insertOrIgnore (records : List NewStepRecord) (acc : StepTable × List StepRecord) :
    ∃ new, (records.foldl insertOrIgnore acc).1.rows = acc.1.rows ++ new ∧
      (records.foldl insertOrIgnore acc).2 = acc.2 ++ new ∧
      acc.1.nextId ≤ (records.foldl insertOrIgnore acc).1.nextId ∧
      (∀ row ∈ new, acc.1.nextId ≤ row.id ∧ ∃ record ∈ records, row = record.row row.id) ∧
      ∀ record ∈ records, ∃ row ∈ acc.1.rows ++ new, row.toStepKey = record.toStepKey := by
  induction records generalizing acc with
  | nil => exact ⟨[], by simp⟩
  | cons record records ih =>
    obtain ⟨new, hrows, hcreated, hnext, hnew, hcover⟩ := ih (insertOrIgnore acc record)
    rw [List.foldl_cons]
    by_cases h : ∀ row ∈ acc.1.rows, row.toStepKey ≠ record.toStepKey
    · have he : insertOrIgnore acc record =
          (acc.1.insert record h, acc.2 ++ [record.row acc.1.nextId]) := dif_pos h
      rw [he] at hrows hcreated hnext hnew hcover ⊢
      have hrows' : (acc.1.insert record h).rows = acc.1.rows ++ [record.row acc.1.nextId] := rfl
      have hnext' : (acc.1.insert record h).nextId = acc.1.nextId + 1 := rfl
      simp only [hrows', hnext', List.append_assoc] at hrows hcreated hnext hnew hcover
      refine ⟨record.row acc.1.nextId :: new, hrows, hcreated, by omega, ?_, ?_⟩
      · intro row hr
        rcases List.mem_cons.mp hr with hr | hr
        · rw [hr]
          exact ⟨le_rfl, record, List.mem_cons_self, rfl⟩
        · obtain ⟨hid, rec', hrec, hrow⟩ := hnew row hr
          exact ⟨by omega, rec', List.mem_cons_of_mem _ hrec, hrow⟩
      · intro record' hrec
        rcases List.mem_cons.mp hrec with hrec | hrec
        · exact ⟨record.row acc.1.nextId, by simp, by rw [hrec]; rfl⟩
        · simpa using hcover record' hrec
    · have he : insertOrIgnore acc record = acc := dif_neg h
      rw [he] at hrows hcreated hnext hnew hcover ⊢
      refine ⟨new, hrows, hcreated, hnext, fun row hr => ?_, fun record' hrec => ?_⟩
      · obtain ⟨hid, rec', hrec, hrow⟩ := hnew row hr
        exact ⟨hid, rec', List.mem_cons_of_mem _ hrec, hrow⟩
      · rcases List.mem_cons.mp hrec with hrec | hrec
        · push Not at h
          obtain ⟨row, hr, hk⟩ := h
          exact ⟨row, List.mem_append_left _ hr, by rw [hrec, hk]⟩
        · exact hcover record' hrec

variable {table} in
theorem createSteps_of_failed (h : table.hasFailedSteps = true) (records : List NewStepRecord) :
    table.createSteps records = (table, []) := if_pos h

/-- **What a batch of new steps adds**: rows made from the records, and with no failed step a row
for every record. -/
theorem exists_created (records : List NewStepRecord) :
    (table.createSteps records).1.rows = table.rows ++ (table.createSteps records).2 ∧
      table.nextId ≤ (table.createSteps records).1.nextId ∧
      (∀ row ∈ (table.createSteps records).2,
        table.nextId ≤ row.id ∧ ∃ record ∈ records, row = record.row row.id) ∧
      (table.hasFailedSteps = false → ∀ record ∈ records,
        ∃ row ∈ (table.createSteps records).1.rows, row.toStepKey = record.toStepKey) := by
  cases hf : table.hasFailedSteps with
  | true => simp [createSteps_of_failed hf]
  | false =>
    have he : table.createSteps records = records.foldl insertOrIgnore (table, []) := by
      simp [createSteps, hf]
    obtain ⟨new, hrows, hcreated, hnext, hnew, hcover⟩ := foldl_insertOrIgnore records (table, [])
    rw [List.nil_append] at hcreated
    rw [he, hcreated, hrows]
    exact ⟨rfl, hnext, hnew, fun _ => hcover⟩

theorem extends_createSteps (records : List NewStepRecord) :
    table.Extends (table.createSteps records).1 := by
  obtain ⟨hrows, hnext, -, -⟩ := table.exists_created records
  exact ⟨fun row hr => ⟨row, hrows ▸ List.mem_append_left _ hr, .refl row⟩, hnext⟩

end StepTable

end N8n.Engine
