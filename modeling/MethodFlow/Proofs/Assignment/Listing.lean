import MethodFlow.Proofs.Assignment.Exactness
import MethodFlow.Proofs.Graph.Routes

/-!
# What the check of definite assignment lists

If every slot which can be reached is set and no variable is declared twice, the check lists, for
each simple route from the start in depth-first order, the variables which the last node of the
route reads when they have no value: `FlowGraph.unassignedReads_lists`.  Which variables have a
value is read off what happened along the route alone (`FlowGraph.unassignedAt`); the scopes of the
check come to the same (`FlowGraph.Tracks.unassignedAll_eq`).
-/

namespace MethodFlow

namespace FlowGraph

variable {g : FlowGraph} {path : List Node} {es os : List Observation} {scopes : List Scope}
  {n m : Node} {p : Exit}

/-- What is found while all of a list happens after all of `es` happened: every read, from left to
right, of a variable which has no value then. -/
def unassignedAfter (g : FlowGraph) (es : List Observation) : List Observation → List Finding
  | [] => []
  | o :: os =>
    (o.reads.filter fun v => g.status v es ≠ .assigned).map (fun v => .unassigned v.name)
      ++ unassignedAfter g (es ++ [o]) os

/-- What is found at the last node of a route taken after all of `es` happened. -/
def unassignedAt (g : FlowGraph) (es : List Observation) (r : Route) : List Finding :=
  g.unassignedAfter (es ++ g.observations r.slots) (g.content r.last).observations

/-- What is found at the last node of a route does not depend on where the route is cut. -/
theorem unassignedAt_cons
    (es : List Observation) (s : Slot) (r : Route) :
  g.unassignedAt es (.cons s r) = g.unassignedAt (es ++ (g.content s.node).observations) r
  := by
  simp [unassignedAt, Route.cons]

/-- The scopes of the check find the reads of variables without a value, in order. -/
theorem Tracks.unassignedAll_eq
    (h : g.Tracks es scopes) (honce : (g.said (es ++ os)).Nodup) :
  Assignment.unassignedAll scopes os = g.unassignedAfter es os
  := by
  induction os generalizing es scopes with
  | nil => rfl
  | cons o os ih =>
      have hreads : (o.reads.filter (!Scope.allows scopes ·))
          = o.reads.filter fun v => g.status v es ≠ .assigned := by
        apply List.filter_congr
        intro v _
        simp [← h.allows_iff v]
      rw [List.append_cons] at honce
      rw [Assignment.unassignedAll, Assignment.unassigned, hreads,
        ih (h.after (Tracks.nodup_said honce)) honce, unassignedAfter]

/-- What is found through an exit which is set is found on the routes through the exit. -/
theorem findings_exploreExit
    (hp : (g.content n).target? p = some m)
    (h : (Assignment.explore g path (Assignment.behind scopes p) m).findings
      = (g.simpleRoutes path m).flatMap
        (g.unassignedAt (es ++ (g.content n).observations))) :
  (Assignment.exploreExit g path scopes n p).findings
    = (g.through (g.simpleRoutes path) n p).flatMap (g.unassignedAt es)
  := by
  rw [Assignment.exploreExit_eq hp, h, through_of_set hp, List.flatMap_map]
  simp only [unassignedAt_cons]

/-- Where every slot is set and no variable is declared twice, the check finds what is found at the
last nodes of the simple routes off the path, one route after the other. -/
theorem findings_explore
    (hwired : g.WiredFrom n) (honce : g.DeclaresOnce) (hpath : path.Nodup)
    (htracks : g.Tracks (g.trace path) scopes) :
  (Assignment.explore g path scopes n).findings
    = (g.simpleRoutes path n).flatMap (g.unassignedAt (g.trace path))
  := by
  induction hsize : g.unvisited path using Nat.strongRecOn generalizing n path scopes with
  | ind size ih =>
      by_cases hn : n ∈ path
      · rw [Assignment.explore_of_mem hn, simpleRoutes_of_mem hn]
        rfl
      · have hcons : (n :: path).Nodup := List.nodup_cons.mpr ⟨hn, hpath⟩
        have hsaid := honce.nodup_said hcons
        rw [trace_cons] at hsaid
        have hlater := htracks.opened.afterAll hsaid
        rw [← trace_cons] at hlater
        have hset : ∀ p ∈ g.exits n, ∃ m, (g.content n).target? p = some m :=
          hwired n Relation.ReflTransGen.refl
        have hfailure : ∀ p ∈ g.exits n, (Assignment.exploreExit g (n :: path)
            (Assignment.afterAll (Assignment.opened scopes) (g.content n).observations) n
              p).failure = none := by
          intro p hp
          obtain ⟨m, hm⟩ := hset p hp
          rw [Assignment.exploreExit_eq hm]
          apply Assignment.failure_explore (hwired.of_target? hm)
        have hhere : Assignment.unassignedAll (Assignment.opened scopes) (g.content n).observations
            = g.unassignedAt (g.trace path) (.stay n) := by
          rw [htracks.opened.unassignedAll_eq hsaid]
          simp [unassignedAt, Route.stay, observations]
        rw [Assignment.explore_eq_of_failure hn hfailure, simpleRoutes_of_not_mem hn,
          List.flatMap_cons, List.flatMap_assoc, hhere]
        apply congrArg (_ ++ ·)
        apply List.flatMap_congr
        intro p hp
        obtain ⟨m, hm⟩ := hset p hp
        have hlt := unvisited_cons_lt (mem_nodes_of_target? hm) hn
        apply findings_exploreExit hm
        rw [← trace_cons]
        apply ih _ (hsize ▸ hlt) (hwired.of_target? hm) hcons
          (Assignment.tracks_behind hlater p) rfl

/-- Where every slot which can be reached is set and no variable is declared twice, the check lists
what is found at the last nodes of the simple routes from the start: the routes are taken depth
first, each one once, and the last node of each reads from left to right what it reads without a
value after all that happened along the route. -/
theorem unassignedReads_lists
    (hwired : g.Wired) (honce : g.DeclaresOnce) :
  ∃ routes, g.ListsSimpleRoutes .start routes
    ∧ g.unassignedReads = .ok (routes.flatMap (g.unassignedAt []))
  := by
  use g.simpleRoutes [] .start, g.listsSimpleRoutes .start
  rw [unassignedReads_eq, Assignment.report, Assignment.failure_explore hwired,
    findings_explore hwired honce List.nodup_nil g.tracks_ofParameters]
  rfl

/-- The graph of a method which declares `x`, then comes to a condition both of whose outcomes lead
to the same loop, which reads `x` and goes back to the condition. -/
def readBehindBothBranches : FlowGraph where
  parameters := []
  entry := some (.inner 0)
  cells := #[
    .block [.declare .int ⟨0, "x"⟩] (some (.inner 1)),
    .jump (.bool true) (some (.inner 2)) (some (.inner 2)),
    .jump (.read ⟨0, "x"⟩) (some (.inner 1)) (some .stop)]

/-- The check of this graph lists what is found on the simple routes: the variable, once for each
branch. -/
theorem unassignedReads_lists_readBehindBothBranches :
  readBehindBothBranches.Wired ∧ readBehindBothBranches.DeclaresOnce
    ∧ (∃ routes, readBehindBothBranches.ListsSimpleRoutes .start routes
      ∧ readBehindBothBranches.unassignedReads
        = .ok (routes.flatMap (readBehindBothBranches.unassignedAt [])))
    ∧ readBehindBothBranches.unassignedReads = .ok [.unassigned "x", .unassigned "x"]
  := by
  have hwired : readBehindBothBranches.Wired := by
    apply wired_of_nodes
    decide
  have honce : readBehindBothBranches.DeclaresOnce := by decide
  exact ⟨hwired, honce, unassignedReads_lists hwired honce, rfl⟩

end FlowGraph

end MethodFlow
