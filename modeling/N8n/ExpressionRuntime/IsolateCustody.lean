import N8n.ExpressionRuntime.ExpressionEvaluator
import N8n.Foundations.Custody

/-!
# Custody of isolates

A bridge is in one place at a time: in a pool, with a caller, or still being created. The operations
on bridges move them between places, and those that leave are disposed or were never created.

## Main definitions

* `Place`, `ExpressionEvaluator.At`: where a bridge is
* `ExpressionEvaluator.Located`: bridges are at one place at most, and those that are alive are
  somewhere

## Main results

* `Located.moves`, `Located.moves_setPool`: what moves bridges keeps them located
* `Located.take`, `Located.giveUp`: between a pool and a caller
* `Located.replenished`, `Located.initialized`, `Located.poolDisposed`: in a pool
-/

namespace N8n.ExpressionRuntime

open Custody

/-- Where a pool has a bridge. -/
inductive Part
  | warm | replenishing | initializing
deriving DecidableEq

inductive Place
  | pool (pool : ℕ) (part : Part)
  | held (caller : ℕ)
  | coldStart (caller : ℕ)
deriving DecidableEq

def IsolatePool.Has (pool : IsolatePool) (b : ℕ) : Part → Prop
  | .warm => b ∈ pool.bridges
  | .replenishing => b ∈ pool.replenishPromises.map Prod.fst
  | .initializing => b ∈ pool.initializing

theorem IsolatePool.not_has_initializing {pool : IsolatePool} {b : ℕ}
    (h : pool.initializing = []) : ¬ pool.Has b .initializing := by
  show b ∉ pool.initializing
  rw [h]
  exact List.not_mem_nil

namespace ExpressionEvaluator

variable {config : EvaluatorConfig} {t u : ExpressionEvaluator} {k b c : ℕ} {q : IsolatePool}

/-! ## Places -/

/-- Where a bridge is. -/
def At (t : ExpressionEvaluator) (b : ℕ) : Place → Prop
  | .pool k part => (t.pools k).Has b part
  | .held c => t.bridgesByCaller c = some b
  | .coldStart c => (c, b) ∈ t.coldStarts

def IsAlive (t : ExpressionEvaluator) (b : ℕ) : Prop :=
  b < t.bridgeCount ∧ (t.bridges b).disposed = false ∧ (t.bridges b).creation ≠ .failed

/-! ## Bridges -/

/-- Bridges are at one place at most, and those that are alive are somewhere. -/
structure Located (t : ExpressionEvaluator) : Prop where
  exclusive : Exclusive t.At
  made : ∀ b place, t.At b place → b < t.bridgeCount
  alive : ∀ b, t.IsAlive b → ∃ place, t.At b place

theorem Located.moves (h : t.Located) {m : ℕ → Move Place} (hm : Moves t.At u.At m)
    (hcount : t.bridgeCount ≤ u.bridgeCount) (hgo : ∀ b p, m b = .go p → b < u.bridgeCount)
    (halive : ∀ b, u.IsAlive b → m b ≠ .leave ∧ (m b = .stay → t.IsAlive b)) : u.Located := by
  refine ⟨h.exclusive.moves hm, fun b p hp => ?_, fun b hb => ?_⟩
  · have hp' := (hm b p).mp hp
    cases hmove : m b with
    | stay =>
      rw [hmove] at hp'
      exact (h.made b p hp').trans_le hcount
    | leave =>
      rw [hmove] at hp'
      exact hp'.elim
    | go q => exact hgo b q hmove
  · obtain ⟨hleave, hstay⟩ := halive b hb
    exact hm.exists_place hleave fun hmove => h.alive b (hstay hmove)

/-- A step that leaves all bridges where they are. -/
theorem Located.same (h : t.Located) (hat : u.At = t.At) (hcount : t.bridgeCount ≤ u.bridgeCount)
    (halive : ∀ b, u.IsAlive b → t.IsAlive b) : u.Located := by
  apply h.moves (m := fun _ => .stay) _ hcount nofun fun b hb => ⟨nofun, fun _ => halive b hb⟩
  intro b p
  rw [hat]
  exact Iff.rfl

/-- What a pool does with bridges of its own, or with new ones. -/
theorem Located.moves_setPool (h : t.Located) {m : ℕ → Move Part}
    (hm : Moves (t.pools k).Has q.Has m)
    (hown : ∀ b, m b ≠ .stay → (∃ part, (t.pools k).Has b part) ∨ t.bridgeCount ≤ b) :
    Moves t.At (t.setPool k q).At fun b => (m b).map (.pool k) := by
  -- a bridge that moves was nowhere else
  have helse : ∀ b p, m b ≠ .stay → (∀ part, p ≠ .pool k part) → ¬ t.At b p := by
    intro b p hmove hp hat
    obtain ⟨part, hpart⟩ | hnew := hown b hmove
    · exact hp part (h.exclusive hat (q := .pool k part) hpart)
    · exact absurd (h.made b p hat) hnew.not_gt
  have hother : ∀ b p, (∀ part, p ≠ .pool k part) →
      (t.At b p ↔ ((m b).map (.pool k)).At (t.At b) p) := by
    intro b p hp
    cases hmove : m b with
    | stay => exact Iff.rfl
    | leave => exact iff_of_false (helse b p (hmove ▸ nofun) hp) id
    | go part => exact iff_of_false (helse b p (hmove ▸ nofun) hp) (hp part)
  intro b p
  cases p with
  | pool j part =>
    by_cases hj : j = k
    · subst hj
      show ((t.setPool j q).pools j).Has b part ↔
        ((m b).map (.pool j)).At (t.At b) (.pool j part)
      rw [pools_setPool, hm b part]
      cases m b with
      | stay => exact Iff.rfl
      | leave => exact Iff.rfl
      | go part' => exact ⟨fun h => h ▸ rfl, fun h => (Place.pool.inj h).2⟩
    · rw [← hother b (.pool j part) fun _ heq => hj (Place.pool.inj heq).1]
      show ((t.setPool k q).pools j).Has b part ↔ _
      rw [pools_setPool_of_ne t hj]
      exact Iff.rfl
  | held c => exact hother b (.held c) nofun
  | coldStart c => exact hother b (.coldStart c) nofun

theorem Located.moves_only (h : t.Located) {i : ℕ} {m : Move Place}
    (hm : Moves t.At u.At (Move.only i m)) (hne : m ≠ .stay)
    (hcount : t.bridgeCount ≤ u.bridgeCount) (hmade : i < u.bridgeCount)
    (halive : ∀ b, b ≠ i → u.IsAlive b → t.IsAlive b) (hleave : u.IsAlive i → m ≠ .leave) :
    u.Located := by
  refine h.moves hm hcount (fun b p hgo => ?_) fun b hb => ?_
  · by_cases hb : b = i
    · exact hb ▸ hmade
    · rw [Move.only_of_ne hb] at hgo
      cases hgo
  · by_cases heq : b = i
    · subst heq
      rw [Move.only_self]
      exact ⟨hleave hb, fun hstay => absurd hstay hne⟩
    · rw [Move.only_of_ne heq]
      exact ⟨nofun, fun _ => halive b heq hb⟩

theorem Located.replenish (h : t.Located) {attempt : ℕ} :
    (t.replenish config k attempt).Located := by
  unfold ExpressionEvaluator.replenish
  dsimp only
  split_ifs
  · exact h
  · exact h
  · have hnew : ∀ part, ¬ (t.pools k).Has t.bridgeCount part := fun part hhas =>
      (h.made t.bridgeCount (.pool k part) hhas).false
    have hm : Moves (t.pools k).Has
        { t.pools k with
          warming := (t.pools k).warming + 1
          replenishPromises := (t.pools k).replenishPromises ++ [(t.bridgeCount, attempt)] }.Has
        (Move.only t.bridgeCount (.go .replenishing)) := by
      refine .only (fun part => ?_) fun b hb part => ?_
      · cases part with
        | replenishing => exact iff_of_true (by simp [IsolatePool.Has]) rfl
        | warm => exact iff_of_false (hnew .warm) nofun
        | initializing => exact iff_of_false (hnew .initializing) nofun
      · cases part with
        | replenishing => simp [IsolatePool.Has, hb]
        | warm => exact Iff.rfl
        | initializing => exact Iff.rfl
    have hmoves := h.moves_setPool hm fun b hb => by
      by_cases heq : b = t.bridgeCount
      · exact .inr heq.ge
      · exact absurd (Move.only_of_ne heq) hb
    rw [Move.map_only] at hmoves
    exact h.moves_only hmoves nofun (Nat.le_succ _) (Nat.lt_succ_self _)
      (fun b hb halive => ⟨Nat.lt_of_le_of_ne (Nat.le_of_lt_succ halive.1) hb, halive.2⟩) nofun

/-- A bridge that is no longer alive may be anywhere. -/
theorem Located.disposeBridge (h : t.Located) : (t.disposeBridge b).Located := by
  refine h.same rfl le_rfl fun b' hb' => ?_
  obtain ⟨hmade, hdisposed, hcreation⟩ := hb'
  by_cases heq : b' = b
  · subst heq
    simp [ExpressionEvaluator.disposeBridge, setBridge] at hdisposed
  · simp only [ExpressionEvaluator.disposeBridge, setBridge, ne_eq, heq, not_false_eq_true,
      Function.update_of_ne] at hdisposed hcreation
    exact ⟨hmade, hdisposed, hcreation⟩

/-- A caller without a bridge gets one that was elsewhere, or is new. -/
theorem moves_hold (hc : t.bridgesByCaller c = none) (hheld : u.bridgesByCaller c = some b)
    (hcallers : ∀ c', c' ≠ c → u.bridgesByCaller c' = t.bridgesByCaller c')
    (hself : ∀ p, (∀ c', p ≠ .held c') → ¬ u.At b p) (hnot : ∀ c', t.bridgesByCaller c' ≠ some b)
    (hother : ∀ b', b' ≠ b → ∀ p, (∀ c', p ≠ .held c') → (u.At b' p ↔ t.At b' p)) :
    Moves t.At u.At (Move.only b (.go (.held c))) := by
  refine .only (fun p => ?_) fun b' hb' p => ?_
  · cases p with
    | held c' =>
      by_cases heq : c' = c
      · subst heq
        exact iff_of_true hheld rfl
      · refine iff_of_false (fun hat => hnot c' ?_) fun hgo => heq (Place.held.inj hgo)
        exact (hcallers c' heq).symm.trans hat
    | pool k part => exact iff_of_false (hself _ nofun) nofun
    | coldStart c' => exact iff_of_false (hself _ nofun) nofun
  · cases p with
    | held c' =>
      by_cases heq : c' = c
      · subst heq
        refine iff_of_false (fun hat => hb' ?_) fun hat => nomatch hc.symm.trans hat
        exact Option.some.inj (hat.symm.trans hheld)
      · show u.bridgesByCaller c' = some b' ↔ t.bridgesByCaller c' = some b'
        rw [hcallers c' heq]
    | pool k part => exact hother b' hb' _ nofun
    | coldStart c' => exact hother b' hb' _ nofun

section Located

variable (h : t.Located)
include h

theorem Located.take {bridges : List ℕ} (hnodup : (t.pools k).bridges.Nodup)
    (hbridges : (t.pools k).bridges = b :: bridges) (hc : t.bridgesByCaller c = none) :
    ((t.setPool k { t.pools k with bridges := bridges }).hold c b).Located := by
  have hwarm : t.At b (.pool k .warm) := by
    show b ∈ (t.pools k).bridges
    rw [hbridges]
    exact List.mem_cons_self
  rw [hbridges] at hnodup
  have hm : Moves t.At ((t.setPool k { t.pools k with bridges := bridges }).hold c b).At
      (Move.only b (.go (.held c))) := by
    refine moves_hold hc (Function.update_self ..) (fun c' hc' => Function.update_of_ne hc' ..)
      (fun p hp hat => ?_) (fun c' hc' => ?_) fun b' hb' p hp => ?_
    · cases p with
      | held c' => exact hp c' rfl
      | coldStart c' => exact nomatch h.exclusive hwarm (q := .coldStart c') hat
      | pool j part =>
        have hat' : ((t.setPool k { t.pools k with bridges := bridges }).pools j).Has b part := hat
        by_cases hj : j = k
        · subst hj
          rw [pools_setPool] at hat'
          cases part with
          | warm => exact (List.nodup_cons.mp hnodup).1 hat'
          | replenishing => exact nomatch h.exclusive hwarm (q := .pool j .replenishing) hat'
          | initializing => exact nomatch h.exclusive hwarm (q := .pool j .initializing) hat'
        · rw [pools_setPool_of_ne t hj] at hat'
          exact hj (Place.pool.inj (h.exclusive hwarm (q := .pool j part) hat')).1.symm
    · exact nomatch h.exclusive hwarm (q := .held c') hc'
    · cases p with
      | held c' => exact absurd rfl (hp c')
      | coldStart c' => exact Iff.rfl
      | pool j part =>
        show ((t.setPool k { t.pools k with bridges := bridges }).pools j).Has b' part ↔
          (t.pools j).Has b' part
        by_cases hj : j = k
        · subst hj
          rw [pools_setPool]
          cases part with
          | warm => simp [IsolatePool.Has, hbridges, hb']
          | replenishing => exact Iff.rfl
          | initializing => exact Iff.rfl
        · rw [pools_setPool_of_ne t hj]
  exact h.moves_only hm nofun le_rfl (h.made b _ hwarm) (fun _ _ => id) nofun

/-- A bridge is created for a caller. -/
theorem Located.coldStart :
    Located { t with
      bridgeCount := t.bridgeCount + 1
      coldStarts := t.coldStarts ++ [(c, t.bridgeCount)] } := by
  have hnew : ∀ p, ¬ t.At t.bridgeCount p := fun p hp => (h.made _ p hp).false
  refine h.moves_only (i := t.bridgeCount) (m := .go (.coldStart c)) ?_ nofun (Nat.le_succ _)
    (Nat.lt_succ_self _)
    (fun b hb halive => ⟨Nat.lt_of_le_of_ne (Nat.le_of_lt_succ halive.1) hb, halive.2⟩) nofun
  refine .only (fun p => ?_) fun b hb p => ?_
  · cases p with
    | coldStart c' =>
      have hold : (c', t.bridgeCount) ∉ t.coldStarts := hnew (.coldStart c')
      simp [At, Move.At, hold]
    | held c' => exact iff_of_false (hnew (.held c')) nofun
    | pool k part => exact iff_of_false (hnew (.pool k part)) nofun
  · cases p with
    | coldStart c' => simp [At, hb]
    | held c' => exact Iff.rfl
    | pool k part => exact Iff.rfl

/-- A bridge that was created for a caller and is held by it. -/
theorem Located.coldStarted (hstart : (c, b) ∈ t.coldStarts) (hc : t.bridgesByCaller c = none) :
    Located ({ t.endCreation b true with
      coldStarts := t.coldStarts.filter (·.2 ≠ b) }.hold c b) := by
  have hcold : t.At b (.coldStart c) := hstart
  have hm : Moves t.At ({ t.endCreation b true with
      coldStarts := t.coldStarts.filter (·.2 ≠ b) }.hold c b).At (Move.only b (.go (.held c))) := by
    refine moves_hold hc (Function.update_self ..) (fun c' hc' => Function.update_of_ne hc' ..)
      (fun p hp hat => ?_) (fun c' hc' => ?_) fun b' hb' p hp => ?_
    · cases p with
      | held c' => exact hp c' rfl
      | coldStart c' => exact of_decide_eq_true (List.mem_filter.mp hat).2 rfl
      | pool k part => exact nomatch h.exclusive hcold (q := .pool k part) hat
    · exact nomatch h.exclusive hcold (q := .held c') hc'
    · cases p with
      | held c' => exact absurd rfl (hp c')
      | coldStart c' => exact ⟨fun hat => (List.mem_filter.mp hat).1,
          fun hat => List.mem_filter.mpr ⟨hat, decide_eq_true hb'⟩⟩
      | pool k part => exact Iff.rfl
  refine h.moves_only hm nofun le_rfl (h.made b _ hcold) (fun b' hb' halive => ?_) nofun
  obtain ⟨hmade, hrest⟩ := halive
  have hbridge : (t.endCreation b true).bridges b' = t.bridges b' := Function.update_of_ne hb' ..
  exact ⟨hmade, hbridge ▸ hrest⟩

theorem Located.coldStartFailed (hstart : (c, b) ∈ t.coldStarts) :
    Located { t.endCreation b false with coldStarts := t.coldStarts.filter (·.2 ≠ b) } := by
  have hcold : t.At b (.coldStart c) := hstart
  refine h.moves_only (i := b) (m := .leave) ?_ nofun le_rfl (h.made b _ hcold)
    (fun b' hb' halive => ?_) fun halive => ?_
  · refine .only (fun p => iff_of_false (fun hat => ?_) id) fun b' hb' p => ?_
    · cases p with
      | held c' => exact nomatch h.exclusive hcold (q := .held c') hat
      | coldStart c' => exact of_decide_eq_true (List.mem_filter.mp hat).2 rfl
      | pool k part => exact nomatch h.exclusive hcold (q := .pool k part) hat
    · cases p with
      | held c' => exact Iff.rfl
      | coldStart c' => exact ⟨fun hat => (List.mem_filter.mp hat).1,
          fun hat => List.mem_filter.mpr ⟨hat, decide_eq_true hb'⟩⟩
      | pool k part => exact Iff.rfl
  · obtain ⟨hmade, hrest⟩ := halive
    have hbridge : (t.endCreation b false).bridges b' = t.bridges b' := Function.update_of_ne hb' ..
    exact ⟨hmade, hbridge ▸ hrest⟩
  · have hbridge : ((t.endCreation b false).bridges b).creation = .failed := by
      simp [endCreation, setBridge]
    exact absurd hbridge halive.2.2

theorem Located.createSync (hc : t.bridgesByCaller c = none) :
    Located ({ t.endCreation t.bridgeCount true with bridgeCount := t.bridgeCount + 1 }.hold c
      t.bridgeCount) := by
  have hnew : ∀ p, ¬ t.At t.bridgeCount p := fun p hp => (h.made _ p hp).false
  have hm : Moves t.At ({ t.endCreation t.bridgeCount true with
      bridgeCount := t.bridgeCount + 1 }.hold c t.bridgeCount).At
      (Move.only t.bridgeCount (.go (.held c))) := by
    refine moves_hold hc (Function.update_self ..) (fun c' hc' => Function.update_of_ne hc' ..)
      (fun p hp hat => ?_) (fun c' => hnew (.held c')) fun b' hb' p hp => ?_
    · cases p with
      | held c' => exact hp c' rfl
      | coldStart c' => exact hnew (.coldStart c') hat
      | pool k part => exact hnew (.pool k part) hat
    · cases p with
      | held c' => exact absurd rfl (hp c')
      | coldStart c' => exact Iff.rfl
      | pool k part => exact Iff.rfl
  refine h.moves_only hm nofun (Nat.le_succ _) (Nat.lt_succ_self _) (fun b' hb' halive => ?_) nofun
  obtain ⟨hmade, hrest⟩ := halive
  have hbridge : (t.endCreation t.bridgeCount true).bridges b' = t.bridges b' :=
    Function.update_of_ne hb' ..
  exact ⟨Nat.lt_of_le_of_ne (Nat.le_of_lt_succ hmade) hb', hbridge ▸ hrest⟩

theorem Located.giveUp (hheld : t.bridgesByCaller c = some b)
    (hbridges : ∀ b', b' ≠ b → u.bridges b' = t.bridges b')
    (hdisposed : (u.bridges b).disposed = true) (hcount : u.bridgeCount = t.bridgeCount)
    (hpools : ∀ k, (u.pools k).Has = (t.pools k).Has)
    (hcallers : u.bridgesByCaller = Function.update t.bridgesByCaller c none)
    (hcold : u.coldStarts = t.coldStarts) : u.Located := by
  have hat : t.At b (.held c) := hheld
  refine h.moves_only (i := b) (m := .leave) ?_ nofun hcount.ge (hcount ▸ h.made b _ hat)
    (fun b' hb' halive => ?_) fun halive => ?_
  · have hpool : ∀ b' k part, u.At b' (.pool k part) ↔ t.At b' (.pool k part) := by
      intro b' k part
      show (u.pools k).Has b' part ↔ _
      rw [hpools]
      exact Iff.rfl
    have hcold' : ∀ b' c', u.At b' (.coldStart c') ↔ t.At b' (.coldStart c') := by
      intro b' c'
      show (c', b') ∈ u.coldStarts ↔ _
      rw [hcold]
      exact Iff.rfl
    have hheld' : ∀ b' c', u.At b' (.held c') ↔ c' ≠ c ∧ t.At b' (.held c') := by
      intro b' c'
      show u.bridgesByCaller c' = some b' ↔ _
      rw [hcallers]
      by_cases heq : c' = c
      · rw [heq, Function.update_self]
        exact iff_of_false nofun fun hand => hand.1 rfl
      · rw [Function.update_of_ne heq]
        exact ⟨fun hp => ⟨heq, hp⟩, And.right⟩
    refine .only (fun p => iff_of_false (fun hp => ?_) id) fun b' hb' p => ?_
    · cases p with
      | held c' =>
        obtain ⟨hne, hp⟩ := (hheld' b c').mp hp
        exact hne (Place.held.inj (h.exclusive hp hat))
      | coldStart c' => exact nomatch h.exclusive ((hcold' b c').mp hp) hat
      | pool k part => exact nomatch h.exclusive ((hpool b k part).mp hp) hat
    · cases p with
      | held c' =>
        refine (hheld' b' c').trans ⟨And.right, fun hp => ⟨?_, hp⟩⟩
        rintro rfl
        exact hb' (Option.some.inj (hp.symm.trans hheld))
      | coldStart c' => exact hcold' b' c'
      | pool k part => exact hpool b' k part
  · obtain ⟨hmade, hrest⟩ := halive
    exact ⟨hcount ▸ hmade, hbridges b' hb' ▸ hrest⟩
  · exact absurd (halive.2.1.symm.trans hdisposed) nofun

/-- A pool is changed, but for its bridges. -/
theorem Located.setPool (hhas : q.Has = (t.pools k).Has) : (t.setPool k q).Located := by
  have hm := h.moves_setPool (k := k) (q := q) (m := fun _ => .stay)
    (fun b part => by rw [hhas]; exact Iff.rfl) fun b hb => absurd rfl hb
  exact h.moves hm le_rfl nofun fun b hb => ⟨nofun, fun _ => hb⟩

/-- A pool gives up a bridge, or moves it. -/
theorem Located.setPool_only {part₀ : Part} {m : Move Part} (hpart : (t.pools k).Has b part₀)
    (hself : ∀ part, q.Has b part ↔ m.At ((t.pools k).Has b) part)
    (hother : ∀ b', b' ≠ b → ∀ part, q.Has b' part ↔ (t.pools k).Has b' part)
    (hat : u.At = (t.setPool k q).At) (hcount : u.bridgeCount = t.bridgeCount)
    (hbridges : ∀ b', b' ≠ b → u.bridges b' = t.bridges b') (hne : m ≠ .stay)
    (hleave : u.IsAlive b → m ≠ .leave) : u.Located := by
  have hm := h.moves_setPool (k := k) (Moves.only (m := m) hself hother) fun b' hb' => by
    by_cases heq : b' = b
    · exact .inl ⟨part₀, heq ▸ hpart⟩
    · exact absurd (Move.only_of_ne heq) hb'
  rw [Move.map_only, ← hat] at hm
  refine h.moves_only hm ?_ hcount.ge (hcount ▸ h.made b (.pool k part₀) hpart)
    (fun b' hb' halive => ?_) fun halive hm' => ?_
  · cases m with
    | stay => exact absurd rfl hne
    | leave => exact nofun
    | go part => exact nofun
  · obtain ⟨hmade, hrest⟩ := halive
    exact ⟨hcount ▸ hmade, hbridges b' hb' ▸ hrest⟩
  · cases m with
    | stay => exact absurd rfl hne
    | leave => exact hleave halive rfl
    | go part => cases hm'

theorem Located.replenished {initialized : Bool} (hs : t.replenished k b initialized = some u) :
    u.Located := by
  obtain ⟨promise, hfind, rfl⟩ := Option.map_eq_some_iff.mp hs
  have hb : promise.1 = b := by simpa using List.find?_some hfind
  have hpart : (t.pools k).Has b .replenishing :=
    List.mem_map.mpr ⟨promise, List.mem_of_find?_eq_some hfind, hb⟩
  have hnotin : b ∉ ((t.pools k).replenishPromises.filter (·.1 ≠ b)).map Prod.fst := by
    simp
  have hin : ∀ b', b' ≠ b → (b' ∈ ((t.pools k).replenishPromises.filter (·.1 ≠ b)).map Prod.fst ↔
      b' ∈ (t.pools k).replenishPromises.map Prod.fst) := by
    intro b' hb'
    simp [hb']
  have hnot : ∀ part, part ≠ .replenishing → ¬ (t.pools k).Has b part := fun part hne hat =>
    hne (Place.pool.inj (h.exclusive (p := .pool k part) (q := .pool k .replenishing) hat hpart)).2
  have hbridges : ∀ b', b' ≠ b → (t.endCreation b initialized).bridges b' = t.bridges b' :=
    fun b' hb' => Function.update_of_ne hb' ..
  dsimp only
  split_ifs with hinit hdisposed hretry
  · refine h.setPool_only (m := .leave) hpart (fun part => iff_of_false (fun hhas => ?_) id)
      (fun b' hb' part => ?_) rfl rfl (fun b' hb' => ?_)
      Move.leave_ne_stay fun halive => ?_
    · cases part with
      | replenishing => exact hnotin hhas
      | warm => exact hnot .warm (by decide) hhas
      | initializing => exact hnot .initializing (by decide) hhas
    · cases part with
      | replenishing => exact hin b' hb'
      | warm => exact Iff.rfl
      | initializing => exact Iff.rfl
    · exact (Function.update_of_ne hb' ..).trans (hbridges b' hb')
    · exact absurd halive.2.1 (by
        simp [ExpressionEvaluator.setPool, ExpressionEvaluator.disposeBridge, setBridge])
  · refine h.setPool_only (m := .go .warm) hpart (fun part => ?_) (fun b' hb' part => ?_) rfl rfl
      hbridges Move.go_ne_stay fun _ => Move.go_ne_leave
    · cases part with
      | replenishing => exact iff_of_false hnotin fun hgo => Part.noConfusion hgo
      | warm => exact iff_of_true (List.mem_append_right _ List.mem_cons_self) rfl
      | initializing =>
        exact iff_of_false (hnot .initializing (by decide)) fun hgo => Part.noConfusion hgo
    · cases part with
      | replenishing => exact hin b' hb'
      | warm => simp [IsolatePool.Has, hb']
      | initializing => exact Iff.rfl
  all_goals
    refine h.setPool_only (m := .leave) hpart (fun part => iff_of_false (fun hhas => ?_) id)
      (fun b' hb' part => ?_) rfl rfl hbridges
      Move.leave_ne_stay fun halive => ?_
    · cases part with
      | replenishing => exact hnotin hhas
      | warm => exact hnot .warm (by decide) hhas
      | initializing => exact hnot .initializing (by decide) hhas
    · cases part with
      | replenishing => exact hin b' hb'
      | warm => exact Iff.rfl
      | initializing => exact Iff.rfl
    · exact absurd halive.2.2 (by simp [ExpressionEvaluator.setPool, endCreation, setBridge, hinit])

/-- A pool that is disposed loses its warm bridges. -/
theorem Located.poolDisposed (hs : t.poolDisposed k = some u) : u.Located := by
  unfold ExpressionEvaluator.poolDisposed at hs
  dsimp only at hs
  split_ifs at hs
  cases hs
  let m : ℕ → Move Part := fun b => if b ∈ (t.pools k).bridges then .leave else .stay
  have hm : Moves (t.pools k).Has { t.pools k with bridges := [], settled := true }.Has m := by
    intro b part
    by_cases hb : b ∈ (t.pools k).bridges
    · have hleave : m b = .leave := if_pos hb
      rw [hleave]
      refine iff_of_false (fun hhas => ?_) id
      cases part with
      | warm => exact List.not_mem_nil hhas
      | replenishing =>
        exact nomatch h.exclusive (p := .pool k .warm) (q := .pool k .replenishing) hb hhas
      | initializing =>
        exact nomatch h.exclusive (p := .pool k .warm) (q := .pool k .initializing) hb hhas
    · have hstay : m b = .stay := if_neg hb
      rw [hstay]
      cases part with
      | warm => exact iff_of_false List.not_mem_nil hb
      | replenishing => exact Iff.rfl
      | initializing => exact Iff.rfl
  have hmoves := h.moves_setPool hm fun b hb => by
    by_contra hnot
    exact hb (if_neg fun hmem => hnot (.inl ⟨.warm, hmem⟩))
  refine h.moves hmoves le_rfl (fun b p hgo => ?_) fun b halive => ?_
  · by_cases hb : b ∈ (t.pools k).bridges
    · simp [m, hb, Move.map] at hgo
    · simp [m, hb, Move.map] at hgo
  · obtain ⟨hmade, hrest⟩ := halive
    dsimp only at hrest
    by_cases hb : b ∈ (t.pools k).bridges
    · rw [if_pos hb] at hrest
      cases hrest.1
    · rw [if_neg hb] at hrest
      exact ⟨by simp [m, hb, Move.map], fun _ => ⟨hmade, hrest⟩⟩

/-- The bridges of a pool that is initialized are warm, but for those that have failed. -/
theorem Located.initialized (hu : u.bridges = t.bridges) (hcount : u.bridgeCount = t.bridgeCount)
    (hat : u.At = (t.setPool k q).At)
    (hbridges : q.bridges = (t.pools k).bridges ++
      (t.pools k).initializing.filter fun b => (t.bridges b).creation = .created)
    (hinitializing : q.initializing = [])
    (hreplenish : q.replenishPromises = (t.pools k).replenishPromises)
    (hsettled : ∀ b ∈ (t.pools k).initializing, (t.bridges b).creation ≠ .initializing) :
    u.Located := by
  let m : ℕ → Move Part := fun b =>
    if b ∈ (t.pools k).initializing then
      if (t.bridges b).creation = .created then .go .warm else .leave
    else .stay
  have hm : Moves (t.pools k).Has q.Has m := by
    intro b part
    by_cases hb : b ∈ (t.pools k).initializing
    · have hnot : ∀ part, part ≠ .initializing → ¬ (t.pools k).Has b part := fun part hne hhas =>
        hne (Place.pool.inj
          (h.exclusive (p := .pool k part) (q := .pool k .initializing) hhas hb)).2
      have hwarm : b ∈ q.bridges ↔ (t.bridges b).creation = .created := by
        have hold : b ∉ (t.pools k).bridges := hnot .warm nofun
        simp [hbridges, hold, hb]
      have hother : ∀ part, part ≠ .warm → ¬ q.Has b part := by
        intro part hpart hhas
        cases part with
        | warm => exact hpart rfl
        | replenishing =>
          refine hnot .replenishing nofun ?_
          show b ∈ (t.pools k).replenishPromises.map Prod.fst
          exact hreplenish ▸ hhas
        | initializing => exact IsolatePool.not_has_initializing hinitializing hhas
      by_cases hcreated : (t.bridges b).creation = .created
      · have hgo : m b = .go .warm := (if_pos hb).trans (if_pos hcreated)
        rw [hgo]
        by_cases hpart : part = .warm
        · subst hpart
          exact iff_of_true (hwarm.mpr hcreated) rfl
        · exact iff_of_false (hother part hpart) hpart
      · have hleave : m b = .leave := (if_pos hb).trans (if_neg hcreated)
        rw [hleave]
        refine iff_of_false ?_ id
        by_cases hpart : part = .warm
        · subst hpart
          exact fun hhas => hcreated (hwarm.mp hhas)
        · exact hother part hpart
    · have hstay : m b = .stay := if_neg hb
      rw [hstay]
      cases part with
      | warm =>
        show b ∈ q.bridges ↔ b ∈ (t.pools k).bridges
        simp [hbridges, hb]
      | replenishing =>
        show b ∈ q.replenishPromises.map Prod.fst ↔ _
        rw [hreplenish]
        exact Iff.rfl
      | initializing =>
        exact iff_of_false (IsolatePool.not_has_initializing hinitializing) hb
  have hmoves := h.moves_setPool hm fun b hb => by
    by_contra hnot
    exact hb (if_neg fun hmem => hnot (.inl ⟨.initializing, hmem⟩))
  rw [← hat] at hmoves
  have hinit : ∀ b, b ∈ (t.pools k).initializing → b < t.bridgeCount := fun b hb =>
    h.made b (.pool k .initializing) hb
  refine h.moves hmoves hcount.ge (fun b p hgo => ?_) fun b halive => ?_
  · by_cases hb : b ∈ (t.pools k).initializing
    · exact hcount ▸ hinit b hb
    · have hstay : m b = .stay := if_neg hb
      rw [hstay] at hgo
      cases hgo
  · have hold : t.IsAlive b := ⟨hcount ▸ halive.1, hu ▸ halive.2⟩
    refine ⟨?_, fun _ => hold⟩
    by_cases hb : b ∈ (t.pools k).initializing
    · -- a bridge that is neither being created nor failed was created
      have hcreated : (t.bridges b).creation = .created := by
        cases hcreation : (t.bridges b).creation with
        | created => rfl
        | initializing => exact absurd hcreation (hsettled b hb)
        | failed => exact absurd hcreation hold.2.2
      simp [m, hb, hcreated, Move.map]
    · simp [m, hb, Move.map]

/-- A pool is made, all of whose bridges are created. -/
theorem Located.create (hquiet : ∀ b part, ¬ (t.pools k).Has b part) {n : ℕ}
    (hat : u.At = (t.setPool k { IsolatePool.empty with
      initializing := List.range' t.bridgeCount n }).At)
    (hcount : u.bridgeCount = t.bridgeCount + n) (hbridges : u.bridges = t.bridges) :
    u.Located := by
  let m : ℕ → Move Part := fun b =>
    if b ∈ List.range' t.bridgeCount n then .go .initializing else .stay
  have hm : Moves (t.pools k).Has
      { IsolatePool.empty with initializing := List.range' t.bridgeCount n }.Has m := by
    intro b part
    by_cases hb : b ∈ List.range' t.bridgeCount n
    · have hgo : m b = .go .initializing := if_pos hb
      rw [hgo]
      cases part with
      | warm => exact iff_of_false List.not_mem_nil nofun
      | replenishing => exact iff_of_false List.not_mem_nil nofun
      | initializing => exact iff_of_true hb rfl
    · have hstay : m b = .stay := if_neg hb
      rw [hstay]
      refine iff_of_false (fun hhas => ?_) (hquiet b part)
      cases part with
      | warm => exact List.not_mem_nil hhas
      | replenishing => exact List.not_mem_nil hhas
      | initializing => exact hb hhas
  have hmoves := h.moves_setPool hm fun b hb => by
    by_contra hnot
    refine hb (if_neg fun hmem => hnot (.inr ?_))
    exact (List.mem_range'_1.mp hmem).1
  rw [← hat] at hmoves
  refine h.moves hmoves (hcount ▸ Nat.le_add_right _ _) (fun b p hgo => ?_) fun b halive => ?_
  · by_cases hb : b ∈ List.range' t.bridgeCount n
    · exact hcount ▸ (List.mem_range'_1.mp hb).2
    · have hstay : m b = .stay := if_neg hb
      rw [hstay] at hgo
      cases hgo
  · by_cases hb : b ∈ List.range' t.bridgeCount n
    · have hgo : m b = .go .initializing := if_pos hb
      rw [hgo]
      exact ⟨nofun, nofun⟩
    · have hstay : m b = .stay := if_neg hb
      rw [hstay]
      refine ⟨nofun, fun _ => ⟨?_, hbridges ▸ halive.2⟩⟩
      have hlt := halive.1
      rw [hcount] at hlt
      by_contra hnot
      exact hb (List.mem_range'_1.mpr ⟨not_lt.mp hnot, hlt⟩)

end Located

end ExpressionEvaluator

end N8n.ExpressionRuntime
