import MethodFlow.Proofs.Assignment.Exactness
import MethodFlow.Proofs.Graph.Survey

/-!
# For which graphs the check of definite assignment comes to its end

The check enters a node once on every path, the survey of the graph once in all.  What the survey
visited apart from the path of the check leads only to nodes which it visited too
(`FlowGraph.Covers`), so entering such a node again meets no slot which is not set
(`Assignment.failure_of_covers`).  Hence the check fails exactly where the survey stops
(`unassignedReads_of_depthFirst`).
-/

namespace MethodFlow

namespace FlowGraph

variable {g : FlowGraph} {path visited visited' : List Node} {pending : List Slot} {n : Node}

/-- The nodes visited hold the path, and the slots of those off the path are set and lead to nodes
visited. -/
structure Covers (g : FlowGraph) (path visited : List Node) : Prop where
  subset : path ⊆ visited
  leadsInto : ∀ n ∈ visited, n ∉ path → ∀ s ∈ g.slots n, g.LeadsInto visited s

theorem LeadsInto.mono
    {s : Slot} (h : g.LeadsInto visited s) (hsubset : visited ⊆ visited') :
  g.LeadsInto visited' s
  := by
  obtain ⟨m, hm, hs⟩ := h
  exact ⟨m, hsubset hm, hs⟩

theorem Covers.nil
    (g : FlowGraph) :
  g.Covers [] []
  where
  subset := List.Subset.refl []
  leadsInto n hn := by contradiction

theorem Covers.cons
    (h : g.Covers path visited) (hn : n ∈ visited) :
  g.Covers (n :: path) visited
  where
  subset := List.cons_subset.mpr ⟨hn, h.subset⟩
  leadsInto m hm hpath := h.leadsInto m hm fun hmem => hpath (List.mem_cons_of_mem n hmem)

/-- Visiting a node and leading the path through it keeps the path covered. -/
theorem Covers.concat
    (h : g.Covers path visited) (n : Node) :
  g.Covers (n :: path) (visited ++ [n])
  where
  subset := by
    apply List.cons_subset.mpr
    use List.mem_append_right _ (List.mem_singleton_self n)
    apply List.Subset.trans h.subset (List.subset_append_left _ _)
  leadsInto m hm hpath s hs := by
    obtain ⟨hne, hpath⟩ := not_or.mp (mt List.mem_cons.mpr hpath)
    have hm' : m ∈ visited := by simpa [hne] using hm
    apply (h.leadsInto m hm' hpath s hs).mono (List.subset_append_left _ _)

theorem Covers.survey
    (h : g.Covers path visited) (hsurvey : g.survey visited pending = .ok visited') :
  g.Covers path visited'
  where
  subset := List.Subset.trans h.subset (isPrefix_of_survey hsurvey).subset
  leadsInto n hn hpath s hs := by
    by_cases hmem : n ∈ visited
    · apply (h.leadsInto n hmem hpath s hs).mono (isPrefix_of_survey hsurvey).subset
    · apply (leadsInto_of_survey hsurvey).2 n hn hmem s hs

/-- Entering a node keeps a path covered. -/
theorem Covers.enter
    (h : g.Covers path visited) (henter : g.enter visited n = .ok visited') :
  g.Covers path visited'
  := by
  by_cases hn : n ∈ visited
  · rw [enter_of_mem hn] at henter
    cases henter
    apply h
  · rw [enter_of_not_mem hn] at henter
    have hcovers := (h.concat n).survey henter
    constructor
    · apply List.Subset.trans (List.subset_cons_self n path) hcovers.subset
    · intro m hm hpath
      by_cases heq : m = n
      · subst heq
        apply (leadsInto_of_survey henter).1
      · apply hcovers.leadsInto m hm
        simp [heq, hpath]

end FlowGraph

namespace Assignment

variable {g : FlowGraph} {path visited : List Node} {scopes : List Scope} {n m : Node} {p : Exit}

theorem Report.failure_andThen
    (r r' : Report) :
  (r.andThen r').failure = r.failure.or r'.failure
  := by
  obtain ⟨findings, failure⟩ := r
  cases failure <;> rfl

theorem failure_explore_of_not_mem
    (h : n ∉ path) :
  (explore g path scopes n).failure
    = (Report.all ((g.exits n).map (exploreExit g (n :: path)
        (afterAll (opened scopes) (g.content n).observations) n))).failure
  := by
  rw [explore_of_not_mem h, Report.failure_andThen]
  rfl

/-- Among nodes which cover the path, every node is met without a failure. -/
theorem failure_of_covers
    (h : g.Covers path visited) (hn : n ∈ visited) :
  (explore g path scopes n).failure = none
  := by
  induction hsize : g.unvisited path using Nat.strongRecOn generalizing n path scopes with
  | ind size ih =>
      by_cases hmem : n ∈ path
      · rw [explore_of_mem hmem]
        rfl
      · rw [explore_eq_of_failure hmem]
        intro p hp
        obtain ⟨m, hm, htarget⟩ := h.leadsInto n hn hmem ⟨n, p⟩ (List.mem_map_of_mem hp)
        have hlt := FlowGraph.unvisited_cons_lt (FlowGraph.mem_nodes_of_mem_exits hp) hmem
        rw [exploreExit_eq htarget]
        apply ih _ (hsize ▸ hlt) (h.cons hn) hm rfl

/-- The failure at the slot at which a survey stopped, if it did. -/
def failure? (g : FlowGraph) : Except Slot (List Node) → Option Failure
  | .ok _ => none
  | .error s => some (.unsetSlot (g.kind s.node) s.exit)

/-- The exits of a node fail where surveying its slots stops, if what is behind them does. -/
theorem failure_all_exploreExit
    {ps : List Exit} (h : g.Covers path visited) (hps : ps ⊆ g.exits n)
    (hbehind : ∀ p m visited scopes, (g.content n).target? p = some m → g.Covers path visited →
      (explore g path scopes m).failure = failure? g (g.enter visited m)) :
  (Report.all (ps.map (exploreExit g path scopes n))).failure
    = failure? g (g.survey visited (ps.map (⟨n, ·⟩)))
  := by
  induction ps generalizing visited with
  | nil =>
      rw [List.map_nil, List.map_nil, FlowGraph.survey_nil]
      rfl
  | cons p ps ih =>
      obtain ⟨hp, hps⟩ := List.cons_subset.mp hps
      rw [List.map_cons, List.map_cons]
      change (Report.andThen _ (Report.all _)).failure = _
      rw [Report.failure_andThen]
      cases htarget : (g.content n).target? p with
      | some m =>
          rw [exploreExit_eq htarget, FlowGraph.survey_of_set htarget,
            hbehind p m visited _ htarget h]
          cases henter : g.enter visited m with
          | ok visited' => apply ih (h.enter henter) hps
          | error s => rfl
      | none =>
          rw [exploreExit, FlowGraph.target_of_unset hp htarget,
            FlowGraph.survey_of_unset htarget]
          rfl

/-- If the nodes visited cover the path, the check fails at a node where entering it fails. -/
theorem failure_explore_eq
    (h : g.Covers path visited) :
  (explore g path scopes n).failure = failure? g (g.enter visited n)
  := by
  induction hsize : g.unvisited path using Nat.strongRecOn
    generalizing n path visited scopes with
  | ind size ih =>
      by_cases hn : n ∈ visited
      · rw [failure_of_covers h hn, FlowGraph.enter_of_mem hn]
        rfl
      · have hmem : n ∉ path := fun hmem => hn (h.subset hmem)
        rw [failure_explore_of_not_mem hmem, FlowGraph.enter_of_not_mem hn]
        apply failure_all_exploreExit (h.concat n) (List.Subset.refl _)
        intro p m visited' scopes' hp hcovers
        have hlt := FlowGraph.unvisited_cons_lt (FlowGraph.mem_nodes_of_target? hp) hmem
        apply ih _ (hsize ▸ hlt) hcovers rfl

/-- The report of a graph fails where the survey of the graph stops. -/
theorem failure_report
    (g : FlowGraph) :
  (report g).failure = failure? g g.depthFirst
  := by
  apply failure_explore_eq (FlowGraph.Covers.nil g)

end Assignment

/-- The check of a graph comes to its end if the survey of the graph does.  Otherwise it fails at
the slot at which the survey stops. -/
theorem FlowGraph.unassignedReads_of_depthFirst
    (g : FlowGraph) :
  match g.depthFirst with
  | .ok _ => ∃ findings, g.unassignedReads = .ok findings
  | .error s => g.unassignedReads = .error (.unsetSlot (g.kind s.node) s.exit)
  := by
  rw [unassignedReads_eq, Assignment.failure_report]
  cases g.depthFirst with
  | ok visited => exact ⟨_, rfl⟩
  | error s => rfl

/-- If the check of a graph comes to its end, every slot which can be reached is set. -/
theorem FlowGraph.wired_of_unassignedReads
    {g : FlowGraph} {findings : List Finding} (h : g.unassignedReads = .ok findings) :
  g.Wired
  := by
  have hdepthFirst := g.unassignedReads_of_depthFirst
  cases hsurvey : g.depthFirst with
  | ok visited => apply wired_iff_depthFirst.mpr ⟨visited, hsurvey⟩
  | error s =>
      rw [hsurvey, h] at hdepthFirst
      contradiction

end MethodFlow
