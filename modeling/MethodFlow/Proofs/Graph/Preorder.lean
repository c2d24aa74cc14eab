import MethodFlow.Proofs.Graph.Routes
import MethodFlow.Proofs.Graph.Survey

/-!
# The order in which a survey enters nodes

A survey does not enter a node again which it entered on another path, so it does not follow every
simple route.  Yet it enters the nodes in the order in which the simple routes, listed depth first,
come to them for the first time (`FlowGraph.depthFirst_eq`): behind a node which was dealt with
before there is nothing new.
-/

namespace MethodFlow

namespace FlowGraph

variable {g : FlowGraph} {V V' V₁ path met met' : List Node} {n m k : Node} {p : Exit}
  {ps : List Exit}

/-! ### Nodes which are met for the first time -/

/-- The nodes visited when others were met after those visited before, each new one once. -/
def visitedAfter (V met : List Node) : List Node :=
  met.foldl (fun V n => if n ∈ V then V else V ++ [n]) V

@[simp]
theorem visitedAfter_nil
    (V : List Node) :
  visitedAfter V [] = V
  := rfl

theorem visitedAfter_append
    (V met met' : List Node) :
  visitedAfter V (met ++ met') = visitedAfter (visitedAfter V met) met'
  := by
  apply List.foldl_append

theorem visitedAfter_cons_of_not_mem
    (h : n ∉ V) (met : List Node) :
  visitedAfter V (n :: met) = visitedAfter (V ++ [n]) met
  := by
  rw [visitedAfter, List.foldl_cons, if_neg h]
  rfl

theorem visitedAfter_cons_of_mem
    (h : n ∈ V) (met : List Node) :
  visitedAfter V (n :: met) = visitedAfter V met
  := by
  rw [visitedAfter, List.foldl_cons, if_pos h]
  rfl

theorem visitedAfter_of_subset
    (h : met ⊆ V) :
  visitedAfter V met = V
  := by
  induction met with
  | nil => rfl
  | cons n met ih =>
      obtain ⟨hn, hmet⟩ := List.cons_subset.mp h
      rw [visitedAfter_cons_of_mem hn, ih hmet]

/-- The new nodes are visited in the order of their first meetings. -/
theorem visitedAfter_eq
    (V met : List Node) :
  visitedAfter V met = V ++ (met.filter (· ∉ V)).eraseDups
  := by
  induction met generalizing V with
  | nil => simp
  | cons n met ih =>
      by_cases hn : n ∈ V
      · rw [visitedAfter_cons_of_mem hn, ih, List.filter_cons_of_neg (by simpa using hn)]
      · rw [visitedAfter_cons_of_not_mem hn, ih, List.filter_cons_of_pos (by simpa using hn),
          List.eraseDups_cons, List.filter_filter, List.append_assoc, List.singleton_append]
        congr 3
        apply List.filter_congr
        intro k _
        simp [Bool.beq_eq_decide_eq, Bool.and_comm]

/-! ### What is behind finished nodes -/

/-- The nodes on the path were visited, and every other node which was visited leads only to nodes
which were visited. -/
structure Finished (g : FlowGraph) (V path : List Node) : Prop where
  subset : path ⊆ V
  closed : ∀ n ∈ V, n ∉ path → ∀ m, g.Edge n m → m ∈ V

/-- A route off the path, from a node which was visited, comes to a node which was visited. -/
theorem Finished.mem_of_leads
    {route : List Slot} (h : g.Finished V path) (hroute : g.Leads n route m) (hn : n ∈ V)
    (havoids : ∀ k ∈ route.map Slot.node, k ∉ path) :
  m ∈ V
  := by
  induction hroute with
  | refl n => apply hn
  | @step n k m p route hp _ ih =>
      apply ih
      · apply h.closed n hn _ k ⟨p, hp⟩
        apply havoids n List.mem_cons_self
      · intro j hj
        apply havoids j (List.mem_cons_of_mem _ hj)

/-- Off the path, the simple routes from a node which was visited come to nodes which were
visited. -/
theorem Finished.map_last_subset
    (h : g.Finished V path) (hn : n ∈ V) :
  (g.simpleRoutes path n).map Route.last ⊆ V
  := by
  intro m hm
  obtain ⟨r, hr, rfl⟩ := List.mem_map.mp hm
  obtain ⟨hleads, -, havoids⟩ := mem_approaches_iff.mp (List.mem_filter.mp hr).1
  apply h.mem_of_leads hleads hn havoids

/-! ### The survey -/

/-- Entering the node visits the nodes to which the simple routes from the node come, in depth-first
order, and finishes them. -/
def EntersSimply (g : FlowGraph) (V path : List Node) (m : Node) : Prop :=
  ∀ ⦃V'⦄, g.enter V m = .ok V' →
    V' = visitedAfter V ((g.simpleRoutes path m).map Route.last) ∧ g.Finished V' path

/-- Surveying slots of a node visits the nodes to which the simple routes through these slots come,
if entering what the slots lead to does so. -/
theorem Finished.survey
    (h : g.Finished V₁ path) (hV : V ⊆ V₁)
    (henters : ∀ ⦃p m V₁⦄, (g.content n).target? p = some m → V ⊆ V₁ → g.Finished V₁ path →
      g.EntersSimply V₁ path m)
    (hsurvey : g.survey V₁ (ps.map (⟨n, ·⟩)) = .ok V') :
  V' = visitedAfter V₁ ((ps.flatMap (g.through (g.simpleRoutes path) n)).map Route.last)
    ∧ g.Finished V' path
  := by
  induction ps generalizing V₁ with
  | nil =>
      rw [List.map_nil, survey_nil] at hsurvey
      cases hsurvey
      exact ⟨rfl, h⟩
  | cons p ps ih =>
      rw [List.map_cons] at hsurvey
      cases hp : (g.content n).target? p with
      | none =>
          rw [survey_of_unset hp] at hsurvey
          contradiction
      | some m =>
          rw [survey_of_set hp] at hsurvey
          cases henter : g.enter V₁ m with
          | error s =>
              rw [henter] at hsurvey
              contradiction
          | ok V₂ =>
              rw [henter] at hsurvey
              obtain ⟨hV₂, hfinished⟩ := henters hp hV h henter
              have hV₂' : V ⊆ V₂ := List.Subset.trans hV (isPrefix_of_enter henter).subset
              obtain ⟨hV', hfinished'⟩ := ih hfinished hV₂' hsurvey
              have hlast : (g.through (g.simpleRoutes path) n p).map Route.last
                  = (g.simpleRoutes path m).map Route.last := by
                rw [through_of_set hp, List.map_map]
                rfl
              refine ⟨?_, hfinished'⟩
              rw [hV', List.flatMap_cons, List.map_append, hlast, visitedAfter_append, ← hV₂]

/-- When a survey has dealt with a node, the node is finished. -/
theorem Finished.of_survey
    (h : g.Finished V' (m :: path)) (hsurvey : g.survey V (g.slots m) = .ok V') :
  g.Finished V' path
  where
  subset := List.Subset.trans (List.subset_cons_self m path) h.subset
  closed n hn hpath k hedge := by
    by_cases hnm : n = m
    · subst hnm
      obtain ⟨p, hp⟩ := hedge
      obtain ⟨k', hk', hp'⟩ := (leadsInto_of_survey hsurvey).1 ⟨n, p⟩
        (List.mem_map_of_mem (mem_exits_of_target? hp))
      rwa [Option.some.inj (hp.symm.trans hp')]
    · apply h.closed n hn _ k hedge
      simp [hnm, hpath]

/-- Where what was visited before is finished, entering a node visits the nodes to which the simple
routes from the node come, in depth-first order, and finishes them. -/
theorem Finished.enter
    (h : g.Finished V path) (m : Node) :
  g.EntersSimply V path m
  := by
  induction hsize : g.unvisited V using Nat.strongRecOn generalizing V path m with
  | ind size ih =>
      intro V' henter
      by_cases hm : m ∈ V
      · rw [enter_of_mem hm] at henter
        cases henter
        rw [visitedAfter_of_subset (h.map_last_subset hm)]
        exact ⟨rfl, h⟩
      · have hpath : m ∉ path := fun hmem => hm (h.subset hmem)
        have hentered : g.Finished (V ++ [m]) (m :: path) := by
          constructor
          · apply List.cons_subset.mpr
            simp [h.subset, List.subset_append_of_subset_left]
          · intro n hn hnot k hedge
            rw [List.mem_cons, not_or] at hnot
            have hn' : n ∈ V := by simpa [hnot.1] using hn
            apply List.mem_append_left _ (h.closed n hn' hnot.2 k hedge)
        rw [enter_of_not_mem hm] at henter
        obtain ⟨hV', hfinished⟩ := hentered.survey (List.Subset.refl _)
          (fun p k V₁ hp hV hV₁ => by
            have hlt := unvisited_concat_lt (mem_nodes_of_target? hp) hm
            have hle := unvisited_le_of_subset (g := g) hV
            apply ih _ (by omega) hV₁ k rfl) henter
        refine ⟨?_, hfinished.of_survey henter⟩
        rw [hV', simpleRoutes_of_not_mem hpath, List.map_cons]
        apply (visitedAfter_cons_of_not_mem hm _).symm

/-- A survey of a graph enters the nodes in the order in which the simple routes, listed depth
first, come to them for the first time. -/
theorem depthFirst_eq
    (h : g.depthFirst = .ok V) :
  V = ((g.simpleRoutes [] .start).map Route.last).eraseDups
  := by
  have hnil : g.Finished [] [] := ⟨List.Subset.refl _, fun n hn => absurd hn List.not_mem_nil⟩
  rw [(hnil.enter .start h).1, visitedAfter_eq, List.nil_append,
    List.filter_eq_self.mpr (by simp)]

end FlowGraph

end MethodFlow
