import MethodFlow.Proofs.Assembly.Layout
import MethodFlow.Proofs.Assembly.Returns
import MethodFlow.Proofs.Execution.Preservation

/-!
# The order of the source in a flow graph

The nodes of the flow graph of a method, in the order of creation, hold the simple statements and
the conditions of the method as they are met when its body is read, dead code included.  What one
node holds stands next to one another in the body, with no border between, and a return ends its
block (`Method.flowGraph_keeps_order`).
-/

namespace MethodFlow

namespace FlowGraph

/-- A return is the last action of its block, and the block leads to the stop. -/
theorem EndsReturns.target_eq
    {g : FlowGraph} {n : Node} {before after : List Action} {x : Action} (h : g.EndsReturns n)
    (hactions : (g.content n).actions = before ++ x :: after) (hx : x.endsMethod = true) :
  after = [] ∧ g.target ⟨n, .next⟩ = .ok .stop
  := by
  have hobservations : (g.content n).observations = before.map .act ++ .act x ::
      (after.map .act ++ (g.content n).condition?.toList.map .test) := by
    rw [Content.observations_eq, hactions]
    simp
  obtain ⟨hafter, hstop⟩ := h _ x _ hobservations hx
  rw [List.append_eq_nil_iff, List.map_eq_nil_iff] at hafter
  exact ⟨hafter.1, target_eq_ok_iff.mpr hstop⟩

end FlowGraph

/-- The nodes of the flow graph hold, in the order of creation, the simple statements and conditions
of the method in the order of the source, and a return ends its block.  No condition and no border
of a construct stands between the actions of a block. -/
theorem Method.flowGraph_keeps_order
    (m : Method) :
  ∃ g, m.flowGraph = .ok g
    ∧ (g.nodes.flatMap fun n => (g.content n).observations) = m.tokens.filterMap Token.item?
    ∧ (∀ n before x after, (g.content n).actions = before ++ x :: after → x.endsMethod = true →
      after = [] ∧ g.target ⟨n, .next⟩ = .ok .stop)
    ∧ ∀ before n after, g.nodes = before ++ n :: after →
      ∃ pre post, m.tokens = pre ++ (g.content n).observations.map .item ++ post
        ∧ pre.filterMap Token.item? = before.flatMap (fun k => (g.content k).observations)
        ∧ post.filterMap Token.item? = after.flatMap (fun k => (g.content k).observations)
  := by
  obtain ⟨a, g, ha, hcomplete, hgraph, -⟩ := m.exists_complete
  have hdivided : Divided m.tokens g.parts :=
    (Assembly.divided_of_complete ha hcomplete).thinned m.thinned_code
  use g, hgraph
  refine ⟨?items, ?returns, ?parts⟩
  case items =>
    rw [hdivided.filterMap_item?, FlowGraph.parts, List.flatMap_def]
  case returns =>
    intro n before x after hactions hx
    apply (Assembly.endsReturns_of_complete ha hcomplete n).target_eq hactions hx
  case parts =>
    intro before n after hnodes
    rw [FlowGraph.parts, hnodes, List.map_append, List.map_cons] at hdivided
    obtain ⟨pre, post, htokens, hpre, hpost⟩ := hdivided.exists_split
    use pre, post, htokens
    rw [hpre.filterMap_item?, hpost.filterMap_item?, List.flatMap_def, List.flatMap_def]
    exact ⟨rfl, rfl⟩

/-- What stands behind a return gets nodes as well, though nothing leads there. -/
example :
    (Method.flowGraph ⟨"f", [], [
      .act (.eval (.read ⟨0, "a"⟩)), .act (.ret []), .act (.eval (.read ⟨1, "b"⟩)),
      .loop (.read ⟨2, "c"⟩) [.act (.eval (.read ⟨3, "d"⟩))]]⟩).map FlowGraph.parts
    = .ok [[], [], [.act (.eval (.read ⟨0, "a"⟩)), .act (.ret [])], [.act (.eval (.read ⟨1, "b"⟩))],
      [.test (.read ⟨2, "c"⟩)], [.act (.eval (.read ⟨3, "d"⟩))]] :=
  rfl

end MethodFlow
