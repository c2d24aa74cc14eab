import Mathlib.Data.List.Induction
import MethodFlow.Proofs.Graph.Routes
import MethodFlow.Proofs.Walk.Tour

/-!
# Tours along paths

A tour which keeps the path to the current node in mind enters a node once on every path.  If every
slot which can be reached is set, it meets the last nodes of the routes which leave no node twice,
in depth-first order (`Tour.enumerates_nest`): it enters a node for each simple route, and refuses
one for each simple route and slot of its last node which leads back to the route
(`FlowGraph.tour_lists_simpleRoutes`).  In any case it leaves nothing on the stack and no mark.
-/

namespace MethodFlow

namespace Route

/-- What a tour which started on a path meets at the end of a route. -/
def meeting (path : List Node) (r : Route) : Meeting :=
  ⟨r.last, r.isFresh path⟩

theorem meeting_cons
    (path : List Node) (n : Node) (p : Exit) (r : Route) :
  (cons ⟨n, p⟩ r).meeting path = r.meeting (n :: path)
  := by
  rw [meeting, isFresh_cons]
  rfl

end Route

namespace Tour

open Walk

variable {g : FlowGraph} {path : List Node} {n m : Node}
  {visit : Node → Walk MarkedPath (Array Meeting) Unit}

/-- The state of a tour along a path with some meetings recorded. -/
def progress (path : List Node) (meetings : List Meeting) : Progress MarkedPath (Array Meeting) :=
  ⟨⟨path, path⟩, meetings.toArray⟩

/-- From a node where every slot is set, the visitor records what is met at the end of every route
which leaves no node twice, wherever `path` leads to the node. -/
def Enumerates (g : FlowGraph) (path : List Node)
    (visit : Node → Walk MarkedPath (Array Meeting) Unit) : Prop :=
  ∀ m meetings, g.WiredFrom m →
    visit m (progress path meetings)
      = .ok () (progress path (meetings ++ (g.approaches path m).map (Route.meeting path)))

/-- Visiting the nodes to which exits of a node lead records what is met through these exits. -/
theorem forM_progress
    (hvisit : n ∈ g.nodes → Enumerates g (n :: path) visit) {ps : List Exit} {ms : List Node}
    (hms : List.Forall₂ (fun p m => (g.content n).target? p = some m) ps ms)
    (hwired : g.WiredFrom n) (meetings : List Meeting) :
  ms.forM visit (progress (n :: path) meetings)
    = .ok () (progress (n :: path) (meetings
        ++ (ps.flatMap (g.through (g.approaches (n :: path)) n)).map (Route.meeting path)))
  := by
  induction hms generalizing meetings with
  | nil => simp [List.forM]
  | @cons p m ps ms hp _ ih =>
      have hmeeting : Route.meeting path ∘ Route.cons ⟨n, p⟩ = Route.meeting (n :: path) := by
        funext r
        apply Route.meeting_cons
      have hbehind : g.WiredFrom m := FlowGraph.WiredFrom.of_target? hwired hp
      rw [List.forM_eq_forM, List.forM_cons, bind_apply,
        hvisit (FlowGraph.mem_nodes_of_target? hp) m meetings hbehind]
      dsimp only
      rw [← List.forM_eq_forM, ih, List.flatMap_cons, List.map_append, FlowGraph.through_of_set hp,
        List.map_map, hmeeting, List.append_assoc]

/-- A step records what is met at the end of every route which leaves no node twice, if the visits
behind it do. -/
theorem enumerates_step
    (hvisit : n ∉ path → n ∈ g.nodes → Enumerates g (n :: path) visit) (hwired : g.WiredFrom n)
    (meetings : List Meeting) :
  step g visit n (progress path meetings)
    = .ok () (progress path (meetings ++ (g.approaches path n).map (Route.meeting path)))
  := by
  by_cases hn : n ∈ path
  · have hrefused : Trail.enter? n (progress path meetings).trail = none := if_pos hn
    rw [step_of_refused hrefused, FlowGraph.approaches_of_mem hn]
    simp [meet, progress, Route.meeting, Route.isFresh, Route.stay, hn]
  · have hentered : Trail.enter? n (progress path meetings).trail = some ⟨n :: path, n :: path⟩ :=
      if_neg hn
    have hmeet : meet ⟨n, true⟩ { progress path meetings with trail := ⟨n :: path, n :: path⟩ }
        = progress (n :: path) (meetings ++ [(Route.stay n).meeting path]) := by
      simp [meet, progress, Route.meeting, Route.isFresh, Route.departures, Route.stay, hn]
    obtain ⟨ms, hms⟩ := FlowGraph.exists_successors_iff.mpr (hwired n Relation.ReflTransGen.refl)
    rw [step_of_entered hentered hms, hmeet,
      forM_progress (hvisit hn) (FlowGraph.successors_eq_ok_iff.mp hms) hwired]
    dsimp only
    rw [FlowGraph.approaches_of_not_mem hn, List.map_cons, List.append_assoc, List.singleton_append]
    have hleave := MarkedPath.reversible n _ _ hentered
    rw [progress, hleave]
    rfl

/-- Visits nested deeper than there are nodes off the path record what is met at the end of every
route which leaves no node twice. -/
theorem enumerates_nest
    {depth : Nat} (h : g.unvisited path < depth) :
  Enumerates g path (nest (step g) depth)
  := by
  induction depth generalizing path with
  | zero => exact absurd h (Nat.not_lt_zero _)
  | succ depth ih =>
      intro n meetings hwired
      apply enumerates_step _ hwired
      intro hpath hmem
      have hlt := FlowGraph.unvisited_cons_lt hmem hpath
      apply ih
      omega

/-- Visits come to the same when they may be nested to any depth above the number of nodes off the
path. -/
theorem nest_step_eq
    {s : Progress MarkedPath (Array Meeting)} {depth depth' : Nat}
    (h : g.unvisited s.trail.marks < depth) (h' : g.unvisited s.trail.marks < depth') (n : Node) :
  nest (step g) depth n s = nest (step g) depth' n s
  := by
  apply nest_eq_nest (fun s => g.unvisited s.trail.marks) _ h h'
  intro depth depth' n s hlater
  by_cases hn : n ∈ s.trail.marks
  · have hrefused : Trail.enter? n s.trail = none := if_pos hn
    rw [step_of_refused hrefused, step_of_refused hrefused]
  · have hentered : Trail.enter? n s.trail = some ⟨n :: s.trail.stack, n :: s.trail.marks⟩ :=
      if_neg hn
    cases hms : g.successors n with
    | error e => rw [step_of_unset hentered hms, step_of_unset hentered hms]
    | ok ms =>
        have hkeeps : ∀ m ∈ ms, Keeps Progress.trail (nest (step (τ := MarkedPath) g) depth m) :=
          fun m _ => keeps_trail_nest MarkedPath.reversible g depth m
        rw [step_of_entered hentered hms, step_of_entered hentered hms, forM_congr_of_keeps hkeeps]
        intro m hm s' hs'
        apply hlater
        obtain ⟨p, hp⟩ := (FlowGraph.mem_successors_iff hms).mp hm
        rw [hs']
        apply FlowGraph.unvisited_cons_lt (FlowGraph.mem_nodes_of_target? hp) hn

end Tour

/-! ### Routes which return -/

namespace Route

variable {r r' : Route} {s : Slot}

/-- The last slot of a route and the route before it. -/
def lastStep? (r : Route) : Option (Route × Slot) :=
  r.slots.getLast?.map fun s => (⟨r.slots.dropLast, s.node⟩, s)

/-- A route takes its last slot behind the route before. -/
theorem lastStep?_eq_some_iff :
  r.lastStep? = some (r', s) ↔ r.slots = r'.slots ++ [s] ∧ r'.last = s.node
  := by
  obtain ⟨slots, last⟩ := r
  obtain ⟨slots', last'⟩ := r'
  cases slots using List.reverseRecOn with
  | nil => simp [lastStep?]
  | append_singleton slots t =>
      simp only [lastStep?, List.getLast?_concat, List.dropLast_concat, Option.map_some,
        Option.some.injEq, Prod.mk.injEq, mk.injEq]
      constructor
      · rintro ⟨⟨rfl, rfl⟩, rfl⟩
        exact ⟨rfl, rfl⟩
      · rintro ⟨h, rfl⟩
        obtain ⟨rfl, rfl⟩ : slots = slots' ∧ t = s := by simpa using h
        exact ⟨⟨rfl, rfl⟩, rfl⟩

theorem departures_of_lastStep?
    (h : r.lastStep? = some (r', s)) :
  r.departures = r'.nodes
  := by
  obtain ⟨hslots, hlast⟩ := lastStep?_eq_some_iff.mp h
  simp [departures, nodes, hslots, hlast]

/-- A route which is not fresh has a last slot. -/
theorem exists_lastStep?
    (h : r.isFresh [] = false) :
  ∃ r' s, r.lastStep? = some (r', s)
  := by
  cases hstep : r.lastStep? with
  | some step => exact ⟨step.1, step.2, rfl⟩
  | none =>
      have hslots : r.slots = [] := by simpa [lastStep?] using hstep
      simp [isFresh, departures, hslots] at h

end Route

namespace FlowGraph

variable {g : FlowGraph} {n : Node} {r r' : Route} {s : Slot}

/-- A route with a last slot leaves no node twice exactly if the route before is simple. -/
theorem approach_iff_of_lastStep?
    (h : r.lastStep? = some (r', s)) :
  g.Approach [] n r ↔ g.SimpleRoute n r' ∧ (g.content s.node).target? s.exit = some r.last
  := by
  have hdepartures := Route.departures_of_lastStep? h
  obtain ⟨hslots, hlast⟩ := Route.lastStep?_eq_some_iff.mp h
  constructor
  · rintro ⟨hleads, hnodup, -⟩
    rw [hslots, leads_concat_iff, ← hlast] at hleads
    rw [hdepartures] at hnodup
    exact ⟨⟨hleads.1, hnodup⟩, hlast ▸ hleads.2⟩
  · rintro ⟨⟨hleads, hnodup⟩, htarget⟩
    rw [hlast] at hleads
    refine ⟨?_, hdepartures ▸ hnodup, ?_⟩
    · rw [hslots]
      exact leads_concat_iff.mpr ⟨hleads, htarget⟩
    · intro k _
      apply List.not_mem_nil

/-- The list has the pairs of a simple route from `n` and a slot of its last node which leads back
to the route, each one once. -/
structure ListsReturns (g : FlowGraph) (n : Node) (returns : List (Route × Slot)) : Prop where
  mem_iff : ∀ r s, (r, s) ∈ returns
    ↔ g.SimpleRoute n r ∧ s ∈ g.slots r.last ∧ ∃ m ∈ r.nodes, g.target s = .ok m
  nodup : returns.Nodup

/-- The routes from `n` which come back to a node and leave none twice, each one split before its
last slot. -/
def returns (g : FlowGraph) (n : Node) : List (Route × Slot) :=
  ((g.approaches [] n).filter (!·.isFresh [])).filterMap Route.lastStep?

/-- The routes which come back are the simple ones with a slot of the last node which leads back. -/
theorem mem_returns_iff :
  (r, s) ∈ g.returns n
    ↔ g.SimpleRoute n r ∧ s ∈ g.slots r.last ∧ ∃ m ∈ r.nodes, g.target s = .ok m
  := by
  simp only [returns, List.mem_filterMap, List.mem_filter, Bool.not_eq_true', mem_approaches_iff]
  constructor
  · rintro ⟨a, ⟨happroach, hback⟩, hstep⟩
    obtain ⟨hsimple, htarget⟩ := (approach_iff_of_lastStep? hstep).mp happroach
    have hlast := (Route.lastStep?_eq_some_iff.mp hstep).2
    refine ⟨hsimple, ?_, a.last, ?_, target_eq_ok_iff.mpr htarget⟩
    · rw [hlast]
      apply List.mem_map_of_mem (mem_exits_of_target? htarget)
    · simpa [Route.isFresh, Route.departures_of_lastStep? hstep] using hback
  · rintro ⟨hsimple, hslot, m, hm, htarget⟩
    obtain ⟨p, -, rfl⟩ := List.mem_map.mp hslot
    have hstep : (⟨r.slots ++ [⟨r.last, p⟩], m⟩ : Route).lastStep? = some (r, ⟨r.last, p⟩) :=
      Route.lastStep?_eq_some_iff.mpr ⟨rfl, rfl⟩
    refine ⟨_, ⟨?_, ?_⟩, hstep⟩
    · exact (approach_iff_of_lastStep? hstep).mpr ⟨hsimple, target_eq_ok_iff.mp htarget⟩
    · simpa [Route.isFresh, Route.departures_of_lastStep? hstep] using hm

/-- `returns` lists the pairs of a simple route and a slot which leads back to it. -/
theorem listsReturns
    (g : FlowGraph) (n : Node) :
  g.ListsReturns n (g.returns n)
  where
  mem_iff _ _ := mem_returns_iff
  nodup := by
    apply List.Pairwise.filterMap Route.lastStep? _ ((g.pairwise_approaches [] n).filter _)
    intro a a' hbefore step hstep step' hstep' heq
    subst heq
    obtain ⟨r, s⟩ := step
    have hslots := (Route.lastStep?_eq_some_iff.mp hstep).1
    have hslots' := (Route.lastStep?_eq_some_iff.mp hstep').1
    apply hbefore.slots_ne
    rw [hslots, hslots']

/-- The routes which come back to a node end where their last slots lead. -/
theorem map_target_returns
    (g : FlowGraph) (n : Node) :
  (g.returns n).map (fun step => g.target step.2)
    = ((g.approaches [] n).filter (!·.isFresh [])).map fun r => .ok r.last
  := by
  rw [returns, List.map_filterMap, ← List.filterMap_eq_map]
  apply List.filterMap_congr
  intro a ha
  obtain ⟨happroach, hback⟩ := List.mem_filter.mp ha
  obtain ⟨r, s, hstep⟩ := Route.exists_lastStep? (Bool.not_eq_true' _ ▸ hback)
  have htarget := ((approach_iff_of_lastStep? hstep).mp (mem_approaches_iff.mp happroach)).2
  rw [hstep, Option.map_some, target_eq_ok_iff.mpr htarget]
  rfl

/-! ### The whole tour -/

/-- From a node where every slot is set, a tour along paths meets the ends of the routes which leave
no node twice. -/
theorem WiredFrom.tour_eq
    (h : g.WiredFrom n) :
  g.tour MarkedPath n = ⟨(g.approaches [] n).map (Route.meeting []), Trail.empty, .ok ()⟩
  := by
  have hvisit := Tour.enumerates_nest (g.unvisited_lt_nesting []) n [] h
  have hstart : (⟨Trail.empty, #[]⟩ : Progress MarkedPath _) = Tour.progress [] [] := rfl
  rw [tour, hstart, hvisit]
  rfl

/-- From a node where every slot is set, a tour along paths enters the last node of each simple
route, in depth-first order. -/
theorem WiredFrom.entries_tour
    (h : g.WiredFrom n) :
  (g.tour MarkedPath n).entries = (g.simpleRoutes [] n).map Route.last
  := by
  rw [h.tour_eq, Tour.entries, List.filter_map, List.map_map]
  rfl

/-- From a node where every slot is set, a tour along paths refuses what the slots which lead back
to a simple route lead to. -/
theorem WiredFrom.refusals_tour
    (h : g.WiredFrom n) :
  (g.tour MarkedPath n).refusals.map .ok = (g.returns n).map fun step => g.target step.2
  := by
  rw [h.tour_eq, Tour.refusals, List.filter_map, List.map_map, List.map_map, map_target_returns]
  rfl

/-- Where every slot which can be reached is set, a tour along paths enters the last nodes of the
simple routes, depth first, and refuses a node for each slot which leads a simple route back to
itself.  In any case nothing is left on the stack or marked in the end. -/
theorem tour_lists_simpleRoutes
    (g : FlowGraph) (n : Node) :
  (g.WiredFrom n →
    (g.tour MarkedPath n).outcome = .ok ()
      ∧ (∃ routes, g.ListsSimpleRoutes n routes
        ∧ (g.tour MarkedPath n).entries = routes.map Route.last)
      ∧ ∃ returns, g.ListsReturns n returns
        ∧ (g.tour MarkedPath n).refusals.map .ok = returns.map fun step => g.target step.2)
    ∧ (∀ depth ≥ g.nesting,
      Walk.nest (Tour.step g) depth n (⟨Trail.empty, #[]⟩ : Progress MarkedPath _)
        = Walk.nest (Tour.step g) g.nesting n ⟨Trail.empty, #[]⟩)
    ∧ (g.tour MarkedPath n).trail.depth = 0
    ∧ ∀ m, (g.tour MarkedPath n).trail.isMarked m = false
  := by
  have htrail := Tour.trail_tour MarkedPath.reversible g n
  refine ⟨?_, ?_, ?_, ?_⟩
  · intro hwired
    refine ⟨?_, ?_, ?_⟩
    · rw [hwired.tour_eq]
    · exact ⟨_, g.listsSimpleRoutes n, hwired.entries_tour⟩
    · exact ⟨_, g.listsReturns n, hwired.refusals_tour⟩
  · intro depth hdepth
    have hlt := g.unvisited_lt_nesting []
    apply Tour.nest_step_eq (Nat.lt_of_lt_of_le hlt hdepth) hlt
  · rw [htrail]
    rfl
  · rw [htrail]
    intro m
    rfl

/-- The graph of two conditions, where both outcomes of the first one lead to the second, which goes
back to the first or ends. -/
def loopBehindBothBranches : FlowGraph where
  parameters := []
  entry := some (.inner 0)
  cells := #[
    .jump (.bool true) (some (.inner 1)) (some (.inner 1)),
    .jump (.bool false) (some (.inner 0)) (some .stop)]

/-- A tour along paths of this graph enters the second condition and the end once for each outcome
of the first one, and refuses to go back to it just as often. -/
theorem tour_lists_simpleRoutes_loopBehindBothBranches :
  loopBehindBothBranches.WiredFrom .start
    ∧ (∃ routes, loopBehindBothBranches.ListsSimpleRoutes .start routes
      ∧ (loopBehindBothBranches.tour MarkedPath .start).entries = routes.map Route.last)
    ∧ (loopBehindBothBranches.tour MarkedPath .start).entries
      = [.start, .inner 0, .inner 1, .stop, .inner 1, .stop]
    ∧ (loopBehindBothBranches.tour MarkedPath .start).refusals = [.inner 0, .inner 0]
  := by
  have hwired : loopBehindBothBranches.Wired := by
    apply wired_of_nodes
    decide
  have hroutes := ((tour_lists_simpleRoutes loopBehindBothBranches .start).1 hwired).2.1
  exact ⟨hwired, hroutes, rfl, rfl⟩

end FlowGraph

end MethodFlow
