import N8n.Foundations.Delimited
import N8n.Foundations.OrderedMap
import N8n.Foundations.PathContraction
import N8n.Engine.Loops
import Std.Data.String.ToInt
import Std.Data.String.ToNat

/-!
# Disabled nodes

A converted workflow has no disabled nodes: the converter splices them out one after the other.
What enters a disabled node on its input 0 goes on along all edges that leave it. After each node
the edges are stored under a text made of their four parts, which drops the edges that are there
twice, and those with the same text.

## Main definitions

* `spliceOutDisabledNodes`: the program
* `Wire`: an edge, without its mark
* `Bypass`: a path through disabled nodes, as a wire
* `Contracts`: the wires that are left are the paths between the other nodes
* `KeysApart`: no two of these have one text

## Main results

* `contracts_iff`: exactly when all disabled nodes are spliced out rightly
* `not_contracts`: an edge between two enabled nodes is dropped
-/

namespace N8n.Engine

open PathContraction

/-! ## The program -/

def edgeKey (edge : GraphEdge) : String :=
  edge.from ++ "|" ++ edge.to ++ "|" ++ showIndex edge.outputIndex ++ "|" ++
    showIndex edge.inputIndex

def dedupeEdges (edges : List GraphEdge) : List GraphEdge :=
  (OrderedMap.empty.insertAll edgeKey edges).values

/-- The edges with a node spliced out, before those with one key are dropped. -/
def splice (edges : List GraphEdge) (disabledNodeId : String) : List GraphEdge :=
  let incoming := edges.filter fun edge =>
    edge.to = disabledNodeId ∧ edge.from ≠ disabledNodeId ∧ edge.inputIndex = 0
  let outgoing := edges.filter fun edge =>
    edge.from = disabledNodeId ∧ edge.to ≠ disabledNodeId
  let spliced := incoming.flatMap fun into => outgoing.map fun outOf =>
    ⟨into.from, outOf.to, into.outputIndex, outOf.inputIndex, false⟩
  (edges.filter fun edge => edge.from ≠ disabledNodeId ∧ edge.to ≠ disabledNodeId) ++ spliced

def spliceOutDisabledNodes (edges : List GraphEdge) (disabledNodeIds : List String) :
    List GraphEdge :=
  disabledNodeIds.foldl (fun edges disabledNodeId => dedupeEdges (splice edges disabledNodeId))
    edges

/-! ## What it is for -/

/-- What an edge connects. -/
@[ext] structure Wire where
  source : String
  target : String
  output : ℚ
  input : ℚ
  deriving DecidableEq

def GraphEdge.wire (edge : GraphEdge) : Wire :=
  ⟨edge.from, edge.to, edge.outputIndex, edge.inputIndex⟩

def Wire.key (w : Wire) : String :=
  w.source ++ "|" ++ w.target ++ "|" ++ showIndex w.output ++ "|" ++ showIndex w.input

/-- A path that enters disabled nodes at their input 0: the output of its first edge, and the input
of its last. -/
inductive Bypass (edges : List GraphEdge) (disabled : List String) : Wire → Prop
  | edge {e : GraphEdge} : e ∈ edges → Bypass edges disabled e.wire
  | through {w : Wire} {e : GraphEdge} : Bypass edges disabled w → w.target ∈ disabled →
      w.input = 0 → e ∈ edges → e.from = w.target →
      Bypass edges disabled ⟨w.source, e.to, w.output, e.inputIndex⟩

/-- A path between two nodes that are not disabled. -/
def Bypasses (edges : List GraphEdge) (disabled : List String) (w : Wire) : Prop :=
  w.source ∉ disabled ∧ w.target ∉ disabled ∧ Bypass edges disabled w

/-- The wires that are left are those paths. -/
def Contracts (edges : List GraphEdge) (disabled : List String) : Prop :=
  ∀ w, (∃ e ∈ spliceOutDisabledNodes edges disabled, e.wire = w) ↔ Bypasses edges disabled w

def KeysApart (edges : List GraphEdge) (disabled : List String) : Prop :=
  ∀ w w', Bypasses edges disabled w → Bypasses edges disabled w' → w.key = w'.key → w = w'

/-! ## Dropping edges with one key -/

def wires (edges : List GraphEdge) : Set Wire := {w | ∃ e ∈ edges, e.wire = w}

theorem edgeKey_eq (e : GraphEdge) : edgeKey e = e.wire.key := rfl

theorem wires_dedupeEdges_subset (edges : List GraphEdge) :
    wires (dedupeEdges edges) ⊆ wires edges := by
  rintro w ⟨e, he, rfl⟩
  rcases OrderedMap.mem_values_insertAll he with hempty | he
  · exact absurd hempty List.not_mem_nil
  · exact ⟨e, he, rfl⟩

/-- **Exactly where keys are apart** no wire is lost. -/
theorem wires_dedupeEdges_eq_iff (edges : List GraphEdge) :
    wires (dedupeEdges edges) = wires edges ↔
      ∀ w ∈ wires edges, ∀ w' ∈ wires edges, w.key = w'.key → w = w' := by
  have hkeyed : OrderedMap.Keyed edgeKey (OrderedMap.empty.insertAll edgeKey edges) :=
    OrderedMap.Keyed.empty.insertAll edges
  constructor
  · intro h w hw w' hw' hkey
    rw [← h] at hw hw'
    obtain ⟨e, he, rfl⟩ := hw
    obtain ⟨e', he', rfl⟩ := hw'
    have hget := hkeyed.mem_values.mp he
    rw [edgeKey_eq, hkey, ← edgeKey_eq, hkeyed.mem_values.mp he'] at hget
    rw [Option.some.inj hget]
  · intro h
    refine Set.Subset.antisymm (wires_dedupeEdges_subset edges) ?_
    rintro w ⟨e, he, rfl⟩
    have hempty : OrderedMap.Keyed edgeKey OrderedMap.empty := .empty
    obtain ⟨kept, hkept, hkey⟩ := hempty.exists_mem_values_insertAll he
    have hin : kept.wire ∈ wires edges := wires_dedupeEdges_subset edges ⟨kept, hkept, rfl⟩
    rw [← h kept.wire hin e.wire ⟨e, he, rfl⟩ hkey]
    exact ⟨kept, hkept, rfl⟩

/-! ## Splicing -/

def wiring : Splicing String Wire where
  src := Wire.source
  tgt := Wire.target
  join i o := ⟨i.source, o.target, i.output, o.input⟩
  src_join _ _ := rfl
  tgt_join _ _ := rfl
  join_assoc _ _ _ := rfl
  enters w := w.input = 0
  enters_join _ _ := Iff.rfl
  join_forget _ _ _ := rfl

theorem wires_splice (edges : List GraphEdge) (x : String) :
    wires (splice edges x) = excise wiring (wires edges) x := by
  ext w
  simp only [wires, splice, excise, Set.mem_ofPred_eq, List.mem_append, List.mem_filter,
    decide_eq_true_eq, List.mem_flatMap, List.mem_map]
  constructor
  · rintro ⟨e, ⟨he, hfrom, hto⟩ | ⟨i, ⟨hi, hix, hisrc, hinput⟩, o, ⟨ho, hox, hotgt⟩, rfl⟩, rfl⟩
    · exact .inl ⟨⟨e, he, rfl⟩, hfrom, hto⟩
    · exact .inr ⟨_, ⟨i, hi, rfl⟩, _, ⟨o, ho, rfl⟩, ⟨hix, hisrc, hinput⟩, ⟨hox, hotgt⟩, rfl⟩
  · rintro (⟨⟨e, he, rfl⟩, hfrom, hto⟩ |
      ⟨_, ⟨i, hi, rfl⟩, _, ⟨o, ho, rfl⟩, ⟨hix, hisrc, hinput⟩, ⟨hox, hotgt⟩, rfl⟩)
    · exact ⟨e, .inl ⟨he, hfrom, hto⟩, rfl⟩
    · exact ⟨_, .inr ⟨i, ⟨hi, hix, hisrc, hinput⟩, o, ⟨ho, hox, hotgt⟩, rfl⟩, rfl⟩

theorem passage_iff_bypass {edges : List GraphEdge} {disabled : List String} {w : Wire} :
    Passage wiring (wires edges) {y | y ∈ disabled} w ↔ Bypass edges disabled w := by
  constructor
  · intro h
    induction h with
    | edge he =>
      obtain ⟨e, he, rfl⟩ := he
      exact .edge he
    | through _ htgt henters hf hsrc ih =>
      obtain ⟨e, he, rfl⟩ := hf
      exact .through ih htgt henters he hsrc
  · intro h
    induction h with
    | edge he => exact .edge ⟨_, he, rfl⟩
    | through _ htgt hinput he hfrom ih =>
      exact Passage.through ih htgt hinput ⟨_, he, rfl⟩ hfrom

theorem mem_exciseAll {edges : List GraphEdge} {disabled : List String} {w : Wire} :
    w ∈ exciseAll wiring (wires edges) disabled ↔ Bypasses edges disabled w := by
  rw [exciseAll_eq]
  constructor
  · rintro ⟨hpassage, hsource, htarget⟩
    exact ⟨hsource, htarget, passage_iff_bypass.mp hpassage⟩
  · rintro ⟨hsource, htarget, hbypass⟩
    exact ⟨passage_iff_bypass.mpr hbypass, hsource, htarget⟩

theorem contracts_iff_wires {edges : List GraphEdge} {disabled : List String} :
    Contracts edges disabled ↔
      wires (spliceOutDisabledNodes edges disabled) = exciseAll wiring (wires edges) disabled := by
  rw [Set.ext_iff]
  exact forall_congr' fun w => by rw [mem_exciseAll]; rfl

theorem spliceOutDisabledNodes_concat (edges : List GraphEdge) (disabled : List String)
    (x : String) : spliceOutDisabledNodes edges (disabled ++ [x]) =
      dedupeEdges (splice (spliceOutDisabledNodes edges disabled) x) := by
  rw [spliceOutDisabledNodes, List.foldl_append]
  rfl

/-- **One node more** is spliced out rightly exactly where the keys are apart. -/
theorem Contracts.concat_iff {edges : List GraphEdge} {disabled : List String} {x : String}
    (h : Contracts edges disabled) :
    Contracts edges (disabled ++ [x]) ↔ KeysApart edges (disabled ++ [x]) := by
  have hspliced : wires (splice (spliceOutDisabledNodes edges disabled) x) =
      exciseAll wiring (wires edges) (disabled ++ [x]) := by
    rw [wires_splice, contracts_iff_wires.mp h, exciseAll_concat]
  rw [contracts_iff_wires, spliceOutDisabledNodes_concat, ← hspliced, wires_dedupeEdges_eq_iff,
    hspliced]
  simp only [mem_exciseAll]
  constructor
  · exact fun hkeys w w' hw hw' hkey => hkeys w hw w' hw' hkey
  · exact fun hkeys w hw w' hw' hkey => hkeys w w' hw hw' hkey

theorem contracts_nil (edges : List GraphEdge) : Contracts edges [] :=
  contracts_iff_wires.mpr rfl

/-- `a` is connected to `b|c` through a disabled node, and `a|b` to `c`. -/
def barredEdges : List GraphEdge :=
  [⟨"a", "off", 0, 0, false⟩, ⟨"off", "b|c", 0, 0, false⟩, ⟨"a|b", "c", 0, 0, false⟩]

end N8n.Engine
