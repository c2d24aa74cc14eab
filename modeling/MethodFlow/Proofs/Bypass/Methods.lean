import MethodFlow.Proofs.Assembly.Ascent
import MethodFlow.Proofs.Bypass.Clearing
import MethodFlow.Proofs.Execution.Preservation
import MethodFlow.Proofs.LinearCode.Loops

/-!
# Bypassing the empty blocks of a method once is enough

In a graph which ascends no node leads to an empty block which dominates it: a node is reached from
the start through nodes made before it, but an edge to an empty block leads to a later node
(`FlowGraph.Ascends.undominated`).  The flow graph of a method ascends, so no empty block of it is
left when they have been bypassed (`Method.bypass_flowGraph`).
-/

namespace MethodFlow

open LinearCode Assembly

namespace FlowGraph

variable {g : FlowGraph} {n m k e : Node}

/-- The graph climbs to a node without coming to one made later. -/
theorem Climbs.reachesIn
    (h : g.Climbs n) (hlt : n.index < e.index) :
  g.ReachesIn (· ≠ e) .start n
  := by
  induction h with
  | start =>
      apply ReachesIn.refl
      rintro rfl
      exact absurd hlt (Nat.lt_irrefl _)
  | @step n m _ hedge hnm ih =>
      apply (ih (Nat.lt_trans hnm hlt)).trans
      apply ReachesIn.step _ hedge (ReachesIn.refl _)
      · rintro rfl
        exact absurd (Nat.lt_trans hnm hlt) (Nat.lt_irrefl _)
      · rintro rfl
        exact absurd hlt (Nat.lt_irrefl _)

namespace Ascends

/-- An edge to an empty block leads to a later node. -/
theorem lt_of_edge
    (h : g.Ascends) (hn : g.Reaches .start n) (hedge : g.Edge n e)
    (he : (g.content e).isEmptyBlock) :
  n.index < e.index
  := by
  have hkind : g.kind e = .block := (Content.isEmptyBlock_iff.mp he).1
  obtain rfl | hlt | hjump := h.edge n e hn hedge
  · contradiction
  · apply hlt
  · rw [hkind] at hjump
    contradiction

/-- Edges over empty blocks to an empty block lead to later nodes. -/
theorem lt_of_transGen
    (h : g.Ascends) (hn : g.Reaches .start n) (hskips : Relation.TransGen g.Skips n e)
    (he : (g.content e).isEmptyBlock) :
  n.index < e.index
  := by
  induction hskips with
  | single hskip => apply h.lt_of_edge hn ⟨.next, hskip.2⟩ he
  | @tail k e hskips hskip ih =>
      have hk : g.Reaches .start k := Relation.ReflTransGen.trans hn
        (Slides.reaches hskips.to_reflTransGen)
      apply Nat.lt_trans (ih hskip.1) (h.lt_of_edge hk ⟨.next, hskip.2⟩ he)

/-- No empty block leads over empty blocks back to itself. -/
theorem skipsAcyclic
    (h : g.Ascends) :
  g.SkipsAcyclic
  := by
  intro n hn hskips
  obtain ⟨k, hskip, -⟩ := Relation.TransGen.head'_iff.mp hskips
  exact absurd (h.lt_of_transGen hn hskips hskip.1) (Nat.lt_irrefl _)

/-- No node leads to an empty block which dominates it. -/
theorem undominated
    (h : g.Ascends) :
  g.Undominated
  := by
  rintro n e hreaches hn ⟨k, hedge, hslide⟩ he hdom
  have hlt : n.index < e.index := by
    obtain rfl | hskips := Relation.reflTransGen_iff_eq_or_transGen.mp hslide
    · apply h.lt_of_edge hreaches hedge he
    · obtain ⟨j, hskip, -⟩ := Relation.TransGen.head'_iff.mp hskips
      apply Nat.lt_trans (h.lt_of_edge hreaches hedge hskip.1)
      apply h.lt_of_transGen (hreaches.tail hedge) hskips he
  obtain rfl | hclimbs := h.climbs n hreaches
  · obtain ⟨p, hp⟩ := hedge
    contradiction
  · apply hdom (hclimbs.reachesIn hlt)

end Ascends

end FlowGraph

/-- The flow graph of a method has no empty block which can be reached once its empty blocks have
been bypassed, and bypassing them again changes nothing. -/
theorem Method.bypass_flowGraph
    (m : Method) :
  ∃ g, m.flowGraph = .ok g ∧ (∃ blocks, g.bypass.blocks = .ok blocks)
    ∧ (∀ n, g.bypass.graph.Reaches .start n → ¬ (g.bypass.graph.content n).isEmptyBlock)
    ∧ g.bypass.graph.bypass.graph = g.bypass.graph
    ∧ g.bypass.graph.bypass.changed = .ok false
  := by
  obtain ⟨a, ha, hsound, hdeferred⟩ := m.exists_assembly
  obtain ⟨g, hcomplete, hg⟩ := hsound.complete hdeferred
  have hresolved : Resolved m.parameters g m.code := by
    intro before i after n done happend _ l hl
    apply m.targets_subset
    rw [← happend, targets_append, targets_cons]
    simp [hl]
  have hwired := wired_of_reducible ha hg hresolved m.reducible_code
  have hascends := ascends_of_reducible ha hg hresolved m.reducible_code
  obtain ⟨blocks, hblocks, -⟩ := FlowGraph.exists_bypass hwired hascends.skipsAcyclic
  obtain ⟨hclear, hagain⟩ :=
    FlowGraph.bypass_bypass hwired hascends.skipsAcyclic hascends.undominated
  use g
  refine ⟨?_, ⟨blocks, hblocks⟩, hclear, ?_, ?_⟩
  · rw [Method.flowGraph, ha]
    apply hcomplete
  · rw [hagain]
  · rw [hagain]
    rfl

end MethodFlow
