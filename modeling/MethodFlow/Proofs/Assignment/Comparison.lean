import MethodFlow.Proofs.Assignment.Exploration

/-!
# Checking two graphs of one shape

Two graphs of the same shape have the same nodes, wired in the same way, and may differ in what
happens at a node.  The check of definite assignment takes the same paths through both.  Hence
whatever relates what it finds at one node relates what it finds in all
(`Assignment.Compares.unassignedReads`), provided that the scopes stay related along a path.
-/

namespace MethodFlow

/-- The graphs have the same nodes, of the same kinds, and the slots of one lead where those of the
other do. -/
structure FlowGraph.SameShape (g g' : FlowGraph) : Prop where
  nodes : g'.nodes = g.nodes
  kind : ∀ n ∈ g.nodes, g'.kind n = g.kind n
  target? : ∀ n ∈ g.nodes, ∀ p ∈ g.exits n, (g'.content n).target? p = (g.content n).target? p

namespace FlowGraph.SameShape

variable {g g' : FlowGraph} {n : Node} {p : Exit}

theorem content_eq
    (h : g.SameShape g') (hn : n ∉ g.nodes) :
  g.content n = .stop ∧ g'.content n = .stop
  := by
  constructor
  · apply content_of_not_mem_nodes hn
  · apply content_of_not_mem_nodes
    rwa [h.nodes]

theorem exits
    (h : g.SameShape g') (n : Node) :
  g'.exits n = g.exits n
  := by
  by_cases hn : n ∈ g.nodes
  · rw [FlowGraph.exits, h.kind n hn]
    rfl
  · obtain ⟨hg, hg'⟩ := h.content_eq hn
    rw [FlowGraph.exits, FlowGraph.exits, FlowGraph.kind, FlowGraph.kind, hg, hg']

theorem target
    (h : g.SameShape g') (hp : p ∈ g.exits n) :
  g'.target ⟨n, p⟩ = g.target ⟨n, p⟩
  := by
  have hn := mem_nodes_of_mem_exits hp
  unfold FlowGraph.target
  rw [h.target? n hn p hp, h.exits n, h.kind n hn]

end FlowGraph.SameShape

namespace Assignment

variable {g g' : FlowGraph} {F : List Finding → List Finding → Prop}
  {S : List Scope → List Scope → Prop} {path : List Node} {scopes scopes' : List Scope}
  {n : Node} {r r' s s' : Report}

/-- The reports fail in the same way, if at all, and `F` relates what they found. -/
structure Report.Related (F : List Finding → List Finding → Prop) (r r' : Report) : Prop where
  failure : r'.failure = r.failure
  findings : F r.findings r'.findings

/-- The graphs have the same shape.  Where `S` relates scopes, it relates them after what happens at
a node of each graph, and `F` relates what is found at the node then; and `F` relates what is found
at several nodes if it does so node by node. -/
structure Compares (g g' : FlowGraph) (S : List Scope → List Scope → Prop)
    (F : List Finding → List Finding → Prop) : Prop where
  shape : g.SameShape g'
  nil : F [] []
  append : ∀ {fs fs' hs hs' : List Finding}, F fs fs' → F hs hs' → F (fs ++ hs) (fs' ++ hs')
  opened : ∀ {scopes scopes' : List Scope}, S scopes scopes' → S (opened scopes) (opened scopes')
  node : ∀ {scopes scopes' : List Scope}, ∀ n ∈ g.nodes, S scopes scopes' →
    S (afterAll scopes (g.content n).observations) (afterAll scopes' (g'.content n).observations)
      ∧ F (unassignedAll scopes (g.content n).observations)
        (unassignedAll scopes' (g'.content n).observations)

namespace Compares

theorem clear
    (h : Compares g g' S F) :
  Report.clear.Related F Report.clear
  := ⟨rfl, h.nil⟩

theorem andThen
    (h : Compares g g' S F) (hr : r.Related F r') (hs : s.Related F s') :
  (r.andThen s).Related F (r'.andThen s')
  := by
  obtain ⟨findings, failure⟩ := r
  obtain ⟨findings', failure'⟩ := r'
  obtain ⟨rfl, hfindings⟩ := hr
  cases failure' with
  | some e => exact ⟨rfl, hfindings⟩
  | none => exact ⟨hs.failure, h.append hfindings hs.findings⟩

/-- Reports made for each of several exits are related exit by exit. -/
theorem all
    (h : Compares g g' S F) {ps : List Exit} {f f' : Exit → Report}
    (hf : ∀ p ∈ ps, (f p).Related F (f' p)) :
  (Report.all (ps.map f)).Related F (Report.all (ps.map f'))
  := by
  induction ps with
  | nil => apply h.clear
  | cons p ps ih =>
      apply h.andThen (hf p List.mem_cons_self)
      apply ih
      intro q hq
      apply hf q (List.mem_cons_of_mem p hq)

/-- Related scopes stay related at a node, and what is found there is related. -/
theorem inside
    (h : Compares g g' S F) (n : Node) (hscopes : S scopes scopes') :
  S (afterAll scopes (g.content n).observations) (afterAll scopes' (g'.content n).observations)
    ∧ F (unassignedAll scopes (g.content n).observations)
      (unassignedAll scopes' (g'.content n).observations)
  := by
  by_cases hn : n ∈ g.nodes
  · apply h.node n hn hscopes
  · obtain ⟨hg, hg'⟩ := h.shape.content_eq hn
    rw [hg, hg']
    exact ⟨hscopes, h.nil⟩

/-- From scopes which are related, the reports of a node are related. -/
theorem explore
    (h : Compares g g' S F) (path : List Node) (n : Node) (hscopes : S scopes scopes') :
  (explore g path scopes n).Related F (Assignment.explore g' path scopes' n)
  := by
  induction hsize : g.unvisited path using Nat.strongRecOn generalizing path scopes scopes' n with
  | ind size ih =>
      by_cases hn : n ∈ path
      · rw [explore_of_mem hn, explore_of_mem hn]
        apply h.clear
      · rw [explore_of_not_mem hn, explore_of_not_mem hn, h.shape.exits]
        obtain ⟨hbehind, hhere⟩ := h.inside n (h.opened hscopes)
        have hfirst : Report.Related F
            ⟨unassignedAll (Assignment.opened scopes) (g.content n).observations, none⟩
            ⟨unassignedAll (Assignment.opened scopes') (g'.content n).observations, none⟩ :=
          ⟨rfl, hhere⟩
        apply h.andThen hfirst
        apply h.all
        intro p hp
        rw [exploreExit, exploreExit, h.shape.target hp]
        cases htarget : g.target ⟨n, p⟩ with
        | error e => exact ⟨rfl, h.nil⟩
        | ok m =>
            have hlt := FlowGraph.unvisited_cons_lt (FlowGraph.mem_nodes_of_mem_exits hp) hn
            apply ih _ (hsize ▸ hlt) _ _ _ rfl
            cases p with
            | next => apply hbehind
            | _ => apply h.opened hbehind

/-- If the check of the one graph comes to its end, so does that of the other, and what they find is
related. -/
theorem unassignedReads
    (h : Compares g g' S F)
    (hparameters : S [Scope.ofParameters g.parameters] [Scope.ofParameters g'.parameters])
    {findings : List Finding} (hfindings : g.unassignedReads = .ok findings) :
  ∃ findings', g'.unassignedReads = .ok findings' ∧ F findings findings'
  := by
  obtain ⟨hfailure, hrelated⟩ := h.explore [] .start hparameters
  rw [FlowGraph.unassignedReads_eq] at hfindings
  rw [FlowGraph.unassignedReads_eq]
  cases hreport : (report g).failure with
  | some e =>
      rw [hreport] at hfindings
      contradiction
  | none =>
      rw [hreport] at hfindings
      cases hfindings
      use (report g').findings
      constructor
      · have hreport' : (report g').failure = none := hfailure.trans hreport
        rw [hreport']
      · apply hrelated

end Compares

end Assignment

end MethodFlow
