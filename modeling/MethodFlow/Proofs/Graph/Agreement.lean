import MethodFlow.Drawing.Dot
import MethodFlow.Proofs.Bypass.Survey
import MethodFlow.Proofs.Drawing.Survey

/-!
# Which graphs are well-formed

The text of the drawing of a graph, the set of its arrows, the check of definite assignment and the
bypassing of empty blocks are there for the same graphs: those whose survey comes to its end, which
are the ones where every slot which can be reached is set.  For any other graph all of them fail,
and with the same failure (`FlowGraph.consumers_agree`).
-/

namespace MethodFlow

namespace FlowGraph

variable {g : FlowGraph}

/-- A graph where every slot which can be reached is set is written as text. -/
theorem Wired.exists_dot
    (h : g.Wired) :
  ∃ text, g.dot = .ok text
  := by
  obtain ⟨visited, hvisited⟩ := wired_iff_depthFirst.mp h
  have hdrawing := g.drawing_of_depthFirst
  rw [hvisited] at hdrawing
  obtain ⟨lines, hlines⟩ := hdrawing
  use Drawing.render lines
  rw [dot, hlines]
  rfl

/-- The check of a graph where every slot which can be reached is set comes to its end. -/
theorem Wired.exists_findings
    (h : g.Wired) :
  ∃ findings, g.unassignedReads = .ok findings
  := by
  obtain ⟨visited, hvisited⟩ := wired_iff_depthFirst.mp h
  have hreads := g.unassignedReads_of_depthFirst
  rwa [hvisited] at hreads

/-- In a graph where every slot which can be reached is set, bypassing the empty blocks comes to its
end. -/
theorem Wired.exists_blocks
    (h : g.Wired) :
  ∃ blocks, g.bypass.blocks = .ok blocks
  := by
  obtain ⟨visited, hvisited⟩ := wired_iff_depthFirst.mp h
  have hblocks := g.bypass_of_depthFirst
  rwa [hvisited] at hblocks

/-- Bypassing the empty blocks of a graph fails exactly if the check of the graph does, and with the
same failure. -/
theorem blocks_of_unassignedReads
    (g : FlowGraph) :
  match g.unassignedReads with
  | .ok _ => ∃ blocks, g.bypass.blocks = .ok blocks
  | .error e => g.bypass.blocks = .error e
  := by
  have hreads := g.unassignedReads_of_depthFirst
  have hblocks := g.bypass_of_depthFirst
  cases hsurvey : g.depthFirst with
  | ok visited =>
      rw [hsurvey] at hreads hblocks
      obtain ⟨findings, hfindings⟩ := hreads
      rw [hfindings]
      apply hblocks
  | error s =>
      rw [hsurvey] at hreads hblocks
      rw [hreads]
      apply hblocks

/-- The walks over a graph succeed together, and do exactly if every slot which can be reached is
set.  Otherwise they fail alike, at the first slot which is not set on a walk which enters each node
once and follows what is behind a slot before it reads the next slot of the node. -/
theorem consumers_agree
    (g : FlowGraph) :
  (g.Wired ↔ ∃ visited, g.depthFirst = .ok visited)
    ∧ match g.depthFirst with
      | .ok _ =>
        (∃ text, g.dot = .ok text) ∧ (∃ arrows, g.arrowSet = .ok arrows)
          ∧ (∃ findings, g.unassignedReads = .ok findings)
          ∧ ∃ changed, g.bypass.changed = .ok changed
      | .error s =>
        let e : Failure := .unsetSlot (g.kind s.node) s.exit
        g.dot = .error e ∧ g.arrowSet = .error e
          ∧ g.unassignedReads = .error e ∧ g.bypass.changed = .error e
  := by
  use wired_iff_depthFirst
  have hdrawing := g.drawing_of_depthFirst
  have hreads := g.unassignedReads_of_depthFirst
  have hblocks := g.bypass_of_depthFirst
  unfold dot arrowSet Bypass.Outcome.changed
  cases hsurvey : g.depthFirst with
  | ok visited =>
      rw [hsurvey] at hdrawing hreads hblocks
      obtain ⟨lines, hlines⟩ := hdrawing
      obtain ⟨blocks, hblocks⟩ := hblocks
      rw [hlines, hblocks]
      exact ⟨⟨_, rfl⟩, ⟨_, rfl⟩, hreads, ⟨_, rfl⟩⟩
  | error s =>
      rw [hsurvey] at hdrawing hreads hblocks
      rw [hdrawing, hblocks]
      exact ⟨rfl, rfl, hreads, rfl⟩

end FlowGraph

end MethodFlow
