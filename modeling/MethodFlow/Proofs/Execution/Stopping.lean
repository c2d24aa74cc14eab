import MethodFlow.Proofs.Assembly.Loops
import MethodFlow.Proofs.Graph.Agreement

/-!
# The stop is never out of reach

From every node of the flow graph of a method, whether the node can be reached itself or not, the
stop can be reached, and so it is after the empty blocks were bypassed
(`Method.flowGraph_reaches_stop`).
-/

namespace MethodFlow

namespace FlowGraph

variable {g g' : FlowGraph} {n : Node}

theorem Shortcut.mem_nodes_iff
    (h : g.Shortcut g') :
  n ∈ g'.nodes ↔ n ∈ g.nodes
  := by
  have hsize : g'.cells.size = g.cells.size := by
    have hsize := h.size
    rw [FlowGraph.size, FlowGraph.size] at hsize
    omega
  rw [nodes_eq_of_size hsize]

/-- If the stop can be reached from every node, it can be reached from every node of a shortcut. -/
theorem Shortcut.reaches_stop
    (h : g.Shortcut g') (hstop : ∀ n ∈ g.nodes, g.Reaches n .stop) :
  ∀ n ∈ g'.nodes, g'.Reaches n .stop
  := by
  intro n hn
  have hnot : ¬ (g.content .stop).isEmptyBlock := by simp [content, Content.isEmptyBlock]
  rw [h.reaches_iff hnot]
  apply hstop n (h.mem_nodes_iff.mp hn)

end FlowGraph

/-- Every method has a flow graph, and from every node of it the stop can be reached.  Its empty
blocks are bypassed without a failure, and then the stop can still be reached from every node. -/
theorem Method.flowGraph_reaches_stop
    (m : Method) :
  ∃ g, m.flowGraph = .ok g ∧ (∀ n ∈ g.nodes, g.Reaches n .stop)
    ∧ (∃ blocks, g.bypass.blocks = .ok blocks)
    ∧ ∀ n ∈ g.bypass.graph.nodes, g.bypass.graph.Reaches n .stop
  := by
  obtain ⟨a, g, ha, hcomplete, hgraph, -, hlooped⟩ := m.exists_looped
  have htotal : ∀ n ∈ g.nodes, ∀ p ∈ g.exits n,
      ∃ k ∈ g.nodes, (g.content n).target? p = some k := by
    intro n _ p hp
    obtain ⟨k, htarget, hk, -⟩ :=
      Assembly.exists_target_of_complete (s := ⟨n, p⟩) ha hcomplete hp
    exact ⟨k, hk, FlowGraph.target_eq_ok_iff.mp htarget⟩
  have hstop : ∀ n ∈ g.nodes, g.Reaches n .stop := fun n hn => hlooped.reaches_stop htotal hn
  use g, hgraph, hstop, (Assembly.wired_of_complete ha hcomplete).exists_blocks
  apply g.shortcut_bypass.reaches_stop hstop

end MethodFlow
