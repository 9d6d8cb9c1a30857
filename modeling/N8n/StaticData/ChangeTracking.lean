import N8n.Foundations.Transition
import N8n.StaticData.ObservableObject

/-!
# Noticing changes of static data

A program reads objects from the root of the static data, sets and deletes their properties, and
the flag on the root is reset each time the data has been saved.

## Main definitions

* `Session`: the heap, what the program holds, and whether data changed since the last reset
* `tracking`: a program at work, as a transition system
* `Noticed`: the flag says so when data changed
* `Watched`: data is changed through an observable, or while the flag is set

## Main results

* `rooted_create`: the observables of initial data report to its root
* `noticed_iff_watched`: changes are noticed along a run exactly when every step is watched
* `not_noticed_stored`: a change inside an object that was stored after the creation is missed
-/

namespace N8n.StaticData

/-! ## Reports -/

namespace Heap

structure Reports (heap : Heap) (address : ℕ) : Prop where
  address_lt : address < heap.targetCount
  isSome : ∃ target, heap.targets address = some target
  reportsTo : ∀ index observable, heap.observables index = some observable →
    heap.reportsTo observable = some address
  index_lt : ∀ index observable, heap.observables index = some observable →
    index < heap.observableCount

/-- The root observable wraps the object at an address, and every observable reports to that. -/
structure Rooted (heap : Heap) (root address : ℕ) : Prop extends Reports heap address where
  root_eq : heap.observables root = some ⟨address, none, 0⟩

/-- The flag of the static data. -/
def flag (heap : Heap) (root : ℕ) : Option Bool :=
  (heap.observables root).bind fun observable =>
    (heap.targets observable.target).bind Target.dataChanged

section Reports

variable {heap heap' : Heap} {root address other : ℕ} {f : Target → Target}
  {observable : Observable}

theorem Reports.modify (h : Reports heap address) : Reports (heap.modify other f) address := by
  refine ⟨h.address_lt, ?_, h.reportsTo, h.index_lt⟩
  obtain ⟨target, ht⟩ := h.isSome
  by_cases heq : address = other
  · subst heq
    exact ⟨f target, by simp [Heap.modify, ht]⟩
  · exact ⟨target, by simp [Heap.modify, Function.update_of_ne heq, ht]⟩

theorem Rooted.modify (h : Rooted heap root address) :
    Rooted (heap.modify other f) root address :=
  ⟨h.toReports.modify, h.root_eq⟩

theorem Reports.grows (h : Reports heap address) (hg : Grows address heap heap') :
    Reports heap' address := by
  have hold : ∀ index observable, heap.observables index = some observable →
      heap'.observables index = some observable := by
    intro index observable hsome
    rw [hg.observables index (h.index_lt index observable hsome), hsome]
  have hreports : ∀ observable, heap.reportsTo observable = some address →
      heap'.reportsTo observable = some address := by
    intro observable hr
    unfold Heap.reportsTo at hr ⊢
    split at hr
    · exact hr
    · exact hr
    · rename_i index _
      obtain ⟨parent, hparent, htarget⟩ := Option.map_eq_some_iff.mp hr
      rw [hold index parent hparent, Option.map_some, htarget]
  obtain ⟨target, ht⟩ := h.isSome
  have hcases : ∀ index observable, heap'.observables index = some observable →
      heap.observables index = some observable ∨
        observable.parent = some (.target address) ∧ index < heap'.observableCount := by
    intro index observable hsome
    by_cases hlt : index < heap.observableCount
    · exact .inl (hg.observables index hlt ▸ hsome)
    · exact hg.reports index observable (not_lt.mp hlt) hsome
  refine ⟨h.address_lt.trans_le hg.targetCount_le, ⟨target, ?_⟩, ?_, ?_⟩
  · rw [hg.targets address h.address_lt, ht]
  · intro index observable hsome
    rcases hcases index observable hsome with hsome | ⟨hparent, -⟩
    · exact hreports observable (h.reportsTo index observable hsome)
    · simp [Heap.reportsTo, hparent]
  · intro index observable hsome
    rcases hcases index observable hsome with hsome | ⟨-, hlt⟩
    · exact (h.index_lt index observable hsome).trans_le hg.observableCount_le
    · exact hlt

theorem Rooted.grows (h : Rooted heap root address) (hg : Grows address heap heap') :
    Rooted heap' root address := by
  refine ⟨h.toReports.grows hg, ?_⟩
  rw [hg.observables root (h.index_lt root _ h.root_eq), h.root_eq]

theorem Reports.newObservable (h : Reports heap address)
    (hr : (heap.newObservable observable).reportsTo observable = some address) :
    Reports (heap.newObservable observable) address := by
  have hne : ∀ index old, heap.observables index = some old → index ≠ heap.observableCount := by
    intro index old hsome
    exact (h.index_lt index old hsome).ne
  refine ⟨h.address_lt, h.isSome, ?_, ?_⟩
  · intro index old hsome
    by_cases heq : index = heap.observableCount
    · subst heq
      simp only [Heap.newObservable, Function.update_self, Option.some.injEq] at hsome
      exact hsome ▸ hr
    · simp only [Heap.newObservable, Function.update_of_ne heq] at hsome
      have := h.reportsTo index old hsome
      unfold Heap.reportsTo at this ⊢
      split at this
      · exact this
      · exact this
      · rename_i parent _
        obtain ⟨found, hfound, htarget⟩ := Option.map_eq_some_iff.mp this
        simp only [Heap.newObservable, Function.update_of_ne (hne parent found hfound), hfound,
          Option.map_some, htarget]
  · intro index old hsome
    by_cases heq : index = heap.observableCount
    · exact heq ▸ Nat.lt_succ_self _
    · simp only [Heap.newObservable, Function.update_of_ne heq] at hsome
      exact Nat.lt_succ_of_lt (h.index_lt index old hsome)

theorem Rooted.flag_eq (h : Rooted heap root address) :
    heap.flag root = (heap.targets address).bind Target.dataChanged := by
  rw [flag, h.root_eq]
  rfl

/-- An update that keeps the flags of all objects keeps the flag of the root. -/
theorem Rooted.flag_modify (h : Rooted heap root address)
    (hf : ∀ target, (f target).dataChanged = target.dataChanged) :
    (heap.modify other f).flag root = heap.flag root := by
  rw [h.modify.flag_eq, h.flag_eq, Heap.modify]
  by_cases heq : address = other
  · subst heq
    simp only [Function.update_self, Option.bind_map]
    congr 1
    funext target
    exact hf target
  · simp only [Function.update_of_ne heq]

theorem Rooted.flag_grows (h : Rooted heap root address) (hg : Grows address heap heap') :
    heap'.flag root = heap.flag root := by
  rw [(h.grows hg).flag_eq, h.flag_eq, hg.targets address h.address_lt]

theorem Rooted.flag_report (h : Rooted heap root address) {index : ℕ}
    (ho : heap.observables index = some observable) :
    Rooted (heap.report observable) root address ∧
      (heap.report observable).flag root = some true := by
  have hreport : heap.report observable = heap.mark address := by
    simp [Heap.report, h.reportsTo index observable ho]
  obtain ⟨target, ht⟩ := h.isSome
  have hmark : Rooted (heap.mark address) root address := h.modify
  refine ⟨hreport ▸ hmark, ?_⟩
  rw [hreport, hmark.flag_eq]
  simp [mark, Heap.modify, ht]

end Reports

end Heap

/-- **The observables of initial data** report to its root. -/
theorem rooted_create (fields : Fields Empty) :
    Heap.Rooted (create fields).1 (create fields).2 0 := by
  have hempty : Heap.Reports (Heap.empty.newTarget (.empty false)) 0 := by
    refine ⟨Nat.one_pos, ⟨_, rfl⟩, ?_, ?_⟩
    · intro index observable hsome
      cases hsome
    · intro index observable hsome
      cases hsome
  have hwrapped := hempty.grows (Heap.grows_wrapFields _ 1 (.empty false) fields)
  refine ⟨hwrapped.modify.newObservable rfl, ?_⟩
  exact Function.update_self _ _ _

/-! ## A program at work -/

/-- A program that holds references, and whether it changed data since the last reset. -/
structure Session where
  heap : Heap
  root : ℕ
  held : List Ref
  unsaved : Prop

inductive Event
  /-- Read a property of an object that is held. -/
  | read (r : Ref) (name : String)
  | set (r : Ref) (name : String) (value : Data Ref)
  | delete (r : Ref) (name : String)
  /-- The data has been saved. -/
  | reset
  | getStaticData (key : String)

/-- The objects that are reached from an object through its properties. -/
inductive Reaches (heap : Heap) (start : Ref) : Ref → Prop
  | refl : Reaches heap start start
  | property {r r' : Ref} {target : Target} {name : String} : Reaches heap start r →
      heap.target r = some target → target.props.get? name = some (.reference r') →
      Reaches heap start r'

namespace Session

variable (ignoreEmpty : Bool) (s : Session)

/-- An object of the static data has other data than before. -/
def Differs (r : Ref) (after : Heap) : Prop :=
  Reaches s.heap (.observable s.root) r ∧
    (after.target r).map Target.data ≠ (s.heap.target r).map Target.data

/-- An empty object is new at the top level. -/
def CreatesEmpty (r : Ref) (name : String) (heap : Heap) (value : Value) : Prop :=
  s.heap.address r = s.heap.address (.observable s.root) ∧
    ((s.heap.target r).map fun target => target.get name) = some (.primitive .undefined) ∧
    heap.isEmptyObject value = true

/-- An event that changes data. The creation of an empty object at the top level does not count. -/
def Changes : Event → Prop
  | .set r name data =>
    let (heap, value) := s.heap.alloc data
    ∃ after, heap.setProperty ignoreEmpty r name value = some after ∧ s.Differs r after ∧
      ¬ s.CreatesEmpty r name heap value
  | .delete r name => ∃ after, s.heap.deleteProperty r name = some after ∧ s.Differs r after
  | _ => False

def refs : Value → List Ref
  | .reference r => [r]
  | .primitive _ => []

/-- One event. The program sets and deletes properties of objects that it read, and leaves the flag
alone. -/
def next (e : Event) : Option Session :=
  match e with
  | .read r name =>
    if r ∈ s.held then
      (s.heap.target r).map fun target => { s with held := s.held ++ refs (target.get name) }
    else none
  | .set r name data =>
    if r ∈ s.held ∧ name ≠ flagName then
      let (heap, value) := s.heap.alloc data
      (heap.setProperty ignoreEmpty r name value).map fun heap =>
        { s with heap, unsaved := s.unsaved ∨ s.Changes ignoreEmpty e }
    else none
  | .delete r name =>
    if r ∈ s.held ∧ name ≠ flagName then
      (s.heap.deleteProperty r name).map fun heap =>
        { s with heap, unsaved := s.unsaved ∨ s.Changes ignoreEmpty e }
    else none
  | .reset =>
    (s.heap.observables s.root).map fun observable =>
      { s with
        heap := s.heap.modify observable.target fun target =>
          { target with dataChanged := some false }
        unsaved := False }
  | .getStaticData key =>
    (s.heap.observables s.root).bind fun observable =>
      (s.heap.getStaticData ignoreEmpty observable s.root key).map fun (heap, value) =>
        { s with heap, held := s.held ++ refs value }

end Session

/-- A program that starts with the observable of initial data. -/
def tracking (ignoreEmpty : Bool) : Transition.System Session Event where
  init s := ∃ fields, s = ⟨(create fields).1, (create fields).2, [.observable (create fields).2],
    False⟩
  step s e t := s.next ignoreEmpty e = some t

/-- The flag is set if data changed since the last reset. -/
def Noticed (s : Session) : Prop := s.unsaved → s.heap.flag s.root = some true

/-- Data is changed through an observable, or while the flag is set. -/
def Watched (ignoreEmpty : Bool) (s : Session) (e : Event) : Prop :=
  s.Changes ignoreEmpty e → s.heap.flag s.root = some true ∨
    ∃ index name, e = .delete (.observable index) name ∨
      ∃ data, e = .set (.observable index) name data

section Steps

variable {ignoreEmpty : Bool} {s t : Session} {e : Event} {address : ℕ}

/-- Setting a property through an observable sets the flag, or creates an empty object at the top
level. -/
theorem flag_setThrough {heap after : Heap} {root index : ℕ} {observable : Observable}
    {name : String} {value : Value} (h : heap.Rooted root address)
    (ho : heap.observables index = some observable)
    (hset : heap.setThrough ignoreEmpty observable name value = some after) :
    after.Rooted root address ∧ (after.flag root = some true ∨
      after.flag root = heap.flag root ∧ observable.parent = none ∧
        heap.get observable.target name = .primitive .undefined ∧ heap.isEmptyObject value = true) := by
  unfold Heap.setThrough at hset
  simp only at hset
  split_ifs at hset with hthrow hempty
  · cases hset
    refine ⟨h.modify, .inr ⟨?_, hempty.1.2.1, hempty.1.2.2.2, hempty.2⟩⟩
    exact h.flag_modify fun target => Target.dataChanged_set target name value
  · cases hset
    obtain ⟨hreport, hflag⟩ := h.flag_report ho
    refine ⟨hreport.modify, .inl ?_⟩
    rw [hreport.flag_modify fun target => Target.dataChanged_set target name value, hflag]

/-- A property that is set through an observable without a report is a new empty object at the top
level. -/
theorem flag_set_observable (h : s.heap.Rooted s.root address) {index : ℕ} {name : String}
    {data : Data Ref} {after : Heap}
    (hset : (s.heap.alloc data).1.setProperty ignoreEmpty (.observable index) name
      (s.heap.alloc data).2 = some after) :
    after.Rooted s.root address ∧ (after.flag s.root = some true ∨
      after.flag s.root = s.heap.flag s.root ∧
        s.CreatesEmpty (.observable index) name (s.heap.alloc data).1 (s.heap.alloc data).2) := by
  have hgrows : Heap.Grows address s.heap (s.heap.alloc data).1 := Heap.grows_alloc s.heap data
  have hrooted := h.grows hgrows
  obtain ⟨observable, ho, hset⟩ := Option.bind_eq_some_iff.mp hset
  obtain ⟨hafter, hflag⟩ := flag_setThrough hrooted ho hset
  refine ⟨hafter, hflag.imp_right ?_⟩
  rintro ⟨hsame, hparent, hundefined, hempty⟩
  refine ⟨hsame.trans (h.flag_grows hgrows), ?_, ?_, hempty⟩
  all_goals
    have hold : s.heap.observables index = some observable := by
      by_cases hlt : index < s.heap.observableCount
      · exact hgrows.observables index hlt ▸ ho
      · rcases hgrows.reports index observable (not_lt.mp hlt) ho with hold | ⟨hsome, -⟩
        · exact hold
        · rw [hparent] at hsome
          cases hsome
    have htarget : observable.target = address := by
      have := h.reportsTo index observable hold
      rw [Heap.reportsTo, hparent] at this
      exact Option.some.inj this
  · simp only [Heap.address, hold, h.root_eq, Option.map_some, htarget]
  · obtain ⟨target, ht⟩ := h.isSome
    rw [htarget, Heap.get, hgrows.targets address h.address_lt, ht] at hundefined
    simp only [Heap.target, Heap.address, hold, Option.map_some, Option.bind_some, htarget, ht]
    exact congrArg some hundefined

/-- Static data that is created under a key reports to the root, and is reported unless the
creation of an empty object is ignored. -/
theorem flag_getStaticData {heap after : Heap} {root : ℕ} {key : String} {value : Value}
    (h : heap.Rooted root address)
    (hget : heap.getStaticData ignoreEmpty ⟨address, none, 0⟩ root key = some (after, value)) :
    after.Rooted root address ∧
      (after.flag root = some true ∨ after.flag root = heap.flag root) := by
  unfold Heap.getStaticData at hget
  simp only at hget
  split_ifs at hget
  · obtain ⟨result, hset, heq⟩ := Option.map_eq_some_iff.mp hget
    obtain ⟨rfl, -⟩ := Prod.mk.inj heq
    have hgrows : Heap.Grows address heap
        (heap.newTarget { Target.empty false with dataChanged := some false }) :=
      Heap.grows_newTarget _
    have hrooted := h.grows hgrows
    have hne : root ≠ heap.observableCount := (h.index_lt root _ h.root_eq).ne
    -- the new observable reports to the object behind the root
    have hchild : ((heap.newTarget { Target.empty false with dataChanged := some false
        }).newObservable ⟨heap.targetCount, some (.observable root), 0⟩).Rooted root address := by
      refine ⟨hrooted.newObservable ?_, ?_⟩
      · simp [Heap.reportsTo, Heap.newObservable, Heap.newTarget, Function.update_of_ne hne,
          h.root_eq]
      · simp [Heap.newObservable, Heap.newTarget, Function.update_of_ne hne, h.root_eq]
    obtain ⟨hafter, hflag⟩ := flag_setThrough hchild hchild.root_eq hset
    refine ⟨hafter, hflag.imp_right ?_⟩
    rintro ⟨hsame, -⟩
    rw [hsame, hchild.flag_eq, ← h.flag_grows hgrows, hrooted.flag_eq]
    rfl
  · obtain ⟨rfl, -⟩ := Prod.mk.inj (Option.some.inj hget)
    exact ⟨h, .inr rfl⟩

/-- **What one event does to the flag**: it stays, or it is set, or the event is a reset. -/
theorem flag_next (h : s.heap.Rooted s.root address) (hn : s.next ignoreEmpty e = some t) :
    t.heap.Rooted t.root address ∧ t.root = s.root ∧ (e = .reset ∨
      t.heap.flag s.root = some true ∨ t.heap.flag s.root = s.heap.flag s.root) := by
  cases e with
  | read r name =>
    simp only [Session.next] at hn
    split_ifs at hn
    obtain ⟨target, -, rfl⟩ := Option.map_eq_some_iff.mp hn
    exact ⟨h, rfl, .inr (.inr rfl)⟩
  | set r name data =>
    simp only [Session.next] at hn
    split_ifs at hn
    obtain ⟨after, hset, rfl⟩ := Option.map_eq_some_iff.mp hn
    cases r with
    | plain other =>
      cases hset
      have hrooted := h.grows (Heap.grows_alloc s.heap data)
      refine ⟨hrooted.modify, rfl, .inr (.inr ?_)⟩
      rw [hrooted.flag_modify fun target => Target.dataChanged_set target name _]
      exact h.flag_grows (Heap.grows_alloc s.heap data)
    | observable index =>
      obtain ⟨hafter, hflag⟩ := flag_set_observable h hset
      exact ⟨hafter, rfl, .inr (hflag.imp_right And.left)⟩
  | delete r name =>
    simp only [Session.next] at hn
    split_ifs at hn
    obtain ⟨after, hdelete, rfl⟩ := Option.map_eq_some_iff.mp hn
    cases r with
    | plain other =>
      cases hdelete
      refine ⟨h.modify, rfl, .inr (.inr ?_)⟩
      exact h.flag_modify fun target => Target.dataChanged_delete target name
    | observable index =>
      obtain ⟨observable, ho, rfl⟩ := Option.map_eq_some_iff.mp hdelete
      obtain ⟨hreport, hflag⟩ := h.flag_report ho
      refine ⟨hreport.modify, rfl, .inr (.inl ?_)⟩
      rw [← hflag]
      exact hreport.flag_modify fun target => Target.dataChanged_delete target name
  | reset =>
    simp only [Session.next] at hn
    obtain ⟨observable, -, rfl⟩ := Option.map_eq_some_iff.mp hn
    exact ⟨h.modify, rfl, .inl rfl⟩
  | getStaticData key =>
    simp only [Session.next, h.root_eq, Option.bind_some] at hn
    obtain ⟨⟨after, value⟩, hget, rfl⟩ := Option.map_eq_some_iff.mp hn
    obtain ⟨hafter, hflag⟩ := flag_getStaticData h hget
    exact ⟨hafter, rfl, .inr hflag⟩

/-- Only sets and deletes change data; a reset forgets the changes. -/
theorem unsaved_next (hn : s.next ignoreEmpty e = some t) :
    t.unsaved ↔ e ≠ .reset ∧ (s.unsaved ∨ s.Changes ignoreEmpty e) := by
  cases e with
  | read r name =>
    simp only [Session.next] at hn
    split_ifs at hn
    obtain ⟨target, -, rfl⟩ := Option.map_eq_some_iff.mp hn
    simp [Session.Changes]
  | set r name data =>
    simp only [Session.next] at hn
    split_ifs at hn
    obtain ⟨after, -, rfl⟩ := Option.map_eq_some_iff.mp hn
    simp
  | delete r name =>
    simp only [Session.next] at hn
    split_ifs at hn
    obtain ⟨after, -, rfl⟩ := Option.map_eq_some_iff.mp hn
    simp
  | reset =>
    simp only [Session.next] at hn
    obtain ⟨observable, -, rfl⟩ := Option.map_eq_some_iff.mp hn
    simp
  | getStaticData key =>
    simp only [Session.next] at hn
    obtain ⟨observable, -, hn⟩ := Option.bind_eq_some_iff.mp hn
    obtain ⟨result, -, rfl⟩ := Option.map_eq_some_iff.mp hn
    simp [Session.Changes]

/-- A change through a plain object leaves the flag as it is. -/
theorem flag_of_plain (h : s.heap.Rooted s.root address) (hn : s.next ignoreEmpty e = some t)
    (hc : s.Changes ignoreEmpty e)
    (hplain : ¬ ∃ index name, e = .delete (.observable index) name ∨
      ∃ data, e = .set (.observable index) name data) :
    t.heap.flag t.root = s.heap.flag s.root := by
  cases e with
  | read r name => exact hc.elim
  | reset => exact hc.elim
  | getStaticData key => exact hc.elim
  | set r name data =>
    cases r with
    | observable index => exact absurd ⟨index, name, .inr ⟨data, rfl⟩⟩ hplain
    | plain other =>
      simp only [Session.next] at hn
      split_ifs at hn
      obtain ⟨after, hset, rfl⟩ := Option.map_eq_some_iff.mp hn
      cases hset
      have hrooted := h.grows (Heap.grows_alloc s.heap data)
      show (Heap.modify _ _ _).flag s.root = _
      rw [hrooted.flag_modify fun target => Target.dataChanged_set target name _]
      exact h.flag_grows (Heap.grows_alloc s.heap data)
  | delete r name =>
    cases r with
    | observable index => exact absurd ⟨index, name, .inl rfl⟩ hplain
    | plain other =>
      simp only [Session.next] at hn
      split_ifs at hn
      obtain ⟨after, hdelete, rfl⟩ := Option.map_eq_some_iff.mp hn
      cases hdelete
      exact h.flag_modify fun target => Target.dataChanged_delete target name

theorem flag_of_observable (h : s.heap.Rooted s.root address) (hn : s.next ignoreEmpty e = some t)
    (hc : s.Changes ignoreEmpty e)
    (hobservable : ∃ index name, e = .delete (.observable index) name ∨
      ∃ data, e = .set (.observable index) name data) :
    t.heap.flag t.root = some true := by
  obtain ⟨index, name, rfl | ⟨data, rfl⟩⟩ := hobservable
  · simp only [Session.next] at hn
    split_ifs at hn
    obtain ⟨after, hdelete, rfl⟩ := Option.map_eq_some_iff.mp hn
    obtain ⟨observable, ho, rfl⟩ := Option.map_eq_some_iff.mp hdelete
    obtain ⟨hreport, hflag⟩ := h.flag_report ho
    rw [← hflag]
    exact hreport.flag_modify fun target => Target.dataChanged_delete target name
  · simp only [Session.next] at hn
    split_ifs at hn
    obtain ⟨after, hset, rfl⟩ := Option.map_eq_some_iff.mp hn
    obtain ⟨-, hflag⟩ := flag_set_observable h hset
    rcases hflag with hflag | ⟨-, hempty⟩
    · exact hflag
    · obtain ⟨after', hset', -, hnot⟩ := hc
      exact absurd hempty hnot

/-- **One event is noticed exactly when it is watched**, if everything before was noticed. -/
theorem noticed_next_iff (h : s.heap.Rooted s.root address) (hs : Noticed s)
    (hn : s.next ignoreEmpty e = some t) : Noticed t ↔ Watched ignoreEmpty s e := by
  obtain ⟨-, hroot, hflag⟩ := flag_next h hn
  have hunsaved := unsaved_next hn
  constructor
  · intro ht hc
    by_cases hobservable : ∃ index name, e = .delete (.observable index) name ∨
        ∃ data, e = .set (.observable index) name data
    · exact .inr hobservable
    · left
      rw [← flag_of_plain h hn hc hobservable]
      refine ht (hunsaved.mpr ⟨?_, .inr hc⟩)
      rintro rfl
      exact hc
  · intro hw ht
    obtain ⟨hreset, hdue⟩ := hunsaved.mp ht
    -- the flag stays set until a reset
    have hstays : s.heap.flag s.root = some true → t.heap.flag t.root = some true := by
      intro hset
      rcases hflag with hf | hf | hf
      · exact absurd hf hreset
      · rw [hroot, hf]
      · rw [hroot, hf, hset]
    rcases hdue with hold | hc
    · exact hstays (hs hold)
    · rcases hw hc with hset | hobservable
      · exact hstays hset
      · exact flag_of_observable h hn hc hobservable

/-- **Changes are noticed along a run exactly when** every step is watched. -/
theorem noticed_iff_watched {es : List Event} (h : (tracking ignoreEmpty).init s) :
    ((tracking ignoreEmpty).restrict fun _ _ t => Noticed t).Run s es t ↔
      ((tracking ignoreEmpty).restrict fun s e _ => Watched ignoreEmpty s e).Run s es t := by
  obtain ⟨fields, rfl⟩ := h
  refine Transition.System.Run.restrict_congr
    (I := fun s => s.heap.Rooted s.root 0 ∧ Noticed s) ⟨rooted_create fields, False.elim⟩ ?_ ?_
  · rintro u e v ⟨hr, hu⟩ hn hv
    obtain ⟨hrooted, -⟩ := flag_next hr hn
    exact ⟨hrooted, hv⟩
  · rintro u e v ⟨hr, hu⟩ hn
    exact noticed_next_iff hr hu hn

end Steps

/-- A property of an object in the initial data is set. -/
theorem noticed_iff_watched_nested :
    let start := create (.cons "a" (.object false (.cons "b" (.primitive (.number 1)) .nil)) .nil)
    ∃ t, ((tracking true).restrict fun _ _ t => Noticed t).Run
      ⟨start.1, start.2, [.observable start.2], False⟩
      [.read (.observable 1) "a", .set (.observable 0) "b" (.primitive (.number 2))] t := by
  refine ⟨_, (noticed_iff_watched ⟨_, rfl⟩).mpr
    (.restrict_cons rfl ?_ (.restrict_cons rfl ?_ .nil))⟩
  · intro hc
    exact hc.elim
  · intro _
    exact .inr ⟨0, "b", .inr ⟨_, rfl⟩⟩

/-! ## A change that is missed -/

/-- A program that starts without data. -/
def emptyStart : Session := ⟨(create .nil).1, (create .nil).2, [.observable (create .nil).2], False⟩

/-- An object is stored, the data is saved, and then a property of the object is set. -/
def storedObject : List Event :=
  [.set (.observable 0) "a" (.object false (.cons "b" (.primitive (.number 1)) .nil)), .reset,
    .read (.observable 0) "a", .set (.plain 1) "b" (.primitive (.number 2))]

def storedEnd : Session :=
  (Transition.System.follow (Session.next true) storedObject emptyStart).get rfl

/-- The object is stored as it is, so the change inside it does not set the flag. -/
theorem not_noticed_stored :
    (tracking true).init emptyStart ∧ (tracking true).Run emptyStart storedObject storedEnd ∧
      ¬ Noticed storedEnd := by
  refine ⟨⟨.nil, rfl⟩, Transition.System.run_of_follow id (Option.some_get _).symm, ?_⟩
  intro hnoticed
  have hflag := hnoticed (.inr ?_)
  · revert hflag
    decide
  · refine ⟨_, rfl, ⟨?_, ?_⟩, ?_⟩
    · exact @Reaches.property _ _ _ _ _ "a" .refl rfl rfl
    · intro heq
      have := congrArg (fun data => data.map fun d => d.2.1.get? "b") heq
      revert this
      decide
    · intro hempty
      have := hempty.2.2
      revert this
      decide

end N8n.StaticData
