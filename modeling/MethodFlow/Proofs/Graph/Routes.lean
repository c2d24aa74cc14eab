import MethodFlow.Proofs.Graph.Unvisited

/-!
# Simple routes in depth-first order

`FlowGraph.approaches` lists the routes from a node which leave no node twice, and
`FlowGraph.simpleRoutes` those among them which also come to their last node for the first time.
Both lists are depth first: a route stands before its extensions, and where two routes part, the one
which takes the branch of a condition which holds stands before the other.  A walk which enters a
node once on every path meets the last nodes of the former, and enters those of the latter.
-/

namespace MethodFlow

/-- A route: the slots taken one after the other, and the node to which they lead. -/
structure Route where
  slots : List Slot
  last : Node
deriving DecidableEq

/-- Of the two slots of a jump, the one taken when its condition holds comes before the other. -/
def Slot.Before (s s' : Slot) : Prop :=
  s.node = s'.node ∧ s.exit = .ifTrue ∧ s'.exit = .ifFalse

theorem Slot.not_before_self
    (s : Slot) :
  ¬ s.Before s
  := by
  rintro ⟨-, htrue, hfalse⟩
  rw [htrue] at hfalse
  contradiction

theorem Kind.pairwise_exits
    (k : Kind) (n : Node) :
  k.exits.Pairwise fun p q => Slot.Before ⟨n, p⟩ ⟨n, q⟩
  := by
  cases k <;> simp [exits, Slot.Before]

namespace Route

/-- The route which stays at a node. -/
def stay (n : Node) : Route :=
  ⟨[], n⟩

/-- The route with one slot more in front. -/
def cons (s : Slot) (r : Route) : Route :=
  ⟨s :: r.slots, r.last⟩

/-- The nodes which a route leaves, in order. -/
def departures (r : Route) : List Node :=
  r.slots.map Slot.node

/-- The nodes to which a route comes, in order. -/
def nodes (r : Route) : List Node :=
  r.departures ++ [r.last]

/-- A route comes before its extensions.  Where two routes part, the one which takes the slot which
comes before the slot of the other comes before the other. -/
def Before (r r' : Route) : Prop :=
  List.Lex Slot.Before r.slots r'.slots

/-- Whether a route comes to its last node for the first time, and did not start from a path which
led over it. -/
def isFresh (path : List Node) (r : Route) : Bool :=
  r.last ∉ path ++ r.departures

@[simp]
theorem departures_cons
    (s : Slot) (r : Route) :
  (cons s r).departures = s.node :: r.departures
  := rfl

theorem Before.slots_ne
    {r r' : Route} (h : r.Before r') :
  r.slots ≠ r'.slots
  := by
  intro heq
  unfold Before at h
  rw [heq] at h
  apply List.lex_irrefl Slot.not_before_self _ h

theorem isFresh_cons
    (path : List Node) (n : Node) (p : Exit) (r : Route) :
  (cons ⟨n, p⟩ r).isFresh path = r.isFresh (n :: path)
  := by
  have hmem : (cons ⟨n, p⟩ r).last ∈ path ++ (cons ⟨n, p⟩ r).departures
      ↔ r.last ∈ n :: path ++ r.departures := by
    simp [cons, departures, or_left_comm]
  simp only [isFresh, hmem]

end Route

namespace FlowGraph

variable {g : FlowGraph} {path : List Node} {n m k : Node} {p : Exit} {r : Route}

/-- The routes from `n` which leave no node twice and no node of `path`, depth first. -/
def approaches (g : FlowGraph) (path : List Node) (n : Node) : List Route :=
  .stay n :: if n ∈ path then [] else
    (g.exits n).attach.flatMap fun ⟨p, _⟩ =>
      ((g.content n).target? p).toList.flatMap fun m =>
        (approaches g (n :: path) m).map (.cons ⟨n, p⟩)
termination_by g.unvisited path
decreasing_by
  apply unvisited_cons_lt
  · apply mem_nodes_of_mem_exits
    assumption
  · assumption

/-- The routes listed by `behind` for the node to which an exit leads, led through the exit. -/
def through (g : FlowGraph) (behind : Node → List Route) (n : Node) (p : Exit) : List Route :=
  ((g.content n).target? p).toList.flatMap fun m => (behind m).map (.cons ⟨n, p⟩)

/-- The routes from `n` which come to no node twice and to no node of `path`, depth first. -/
def simpleRoutes (g : FlowGraph) (path : List Node) (n : Node) : List Route :=
  (g.approaches path n).filter (Route.isFresh path)

theorem approaches_of_mem
    (h : n ∈ path) :
  g.approaches path n = [.stay n]
  := by
  rw [approaches, if_pos h]

theorem approaches_of_not_mem
    (h : n ∉ path) :
  g.approaches path n
    = .stay n :: (g.exits n).flatMap (g.through (g.approaches (n :: path)) n)
  := by
  rw [approaches, if_neg h, List.flatMap_def, List.flatMap_def,
    ← List.attach_map_val (f := g.through (g.approaches (n :: path)) n)]
  rfl

theorem through_of_set
    (hp : (g.content n).target? p = some m) (behind : Node → List Route) :
  g.through behind n p = (behind m).map (.cons ⟨n, p⟩)
  := by
  rw [through, hp]
  simp

/-- A route through an exit goes on from the node to which the exit leads. -/
theorem mem_through_iff
    {behind : Node → List Route} :
  r ∈ g.through behind n p
    ↔ ∃ m r', (g.content n).target? p = some m ∧ r' ∈ behind m ∧ r = .cons ⟨n, p⟩ r'
  := by
  simp only [through, List.mem_flatMap, Option.mem_toList, List.mem_map]
  constructor
  · rintro ⟨m, hm, r', hr', rfl⟩
    exact ⟨m, r', hm, hr', rfl⟩
  · rintro ⟨m, r', hm, hr', rfl⟩
    exact ⟨m, hm, r', hr', rfl⟩

/-- The route leads from `n` to its last node, and leaves no node twice and no node of `path`. -/
structure Approach (g : FlowGraph) (path : List Node) (n : Node) (r : Route) : Prop where
  leads : g.Leads n r.slots r.last
  nodup : r.departures.Nodup
  avoids : ∀ k ∈ r.departures, k ∉ path

theorem approach_stay
    (g : FlowGraph) (path : List Node) (n : Node) :
  g.Approach path n (.stay n)
  where
  leads := Leads.refl n
  nodup := List.nodup_nil
  avoids k hk := by contradiction

/-- A route which leaves a node off the path goes on with the path led through that node. -/
theorem approach_cons_iff
    (hn : n ∉ path) (hp : (g.content n).target? p = some m) :
  g.Approach path n (.cons ⟨n, p⟩ r) ↔ g.Approach (n :: path) m r
  := by
  constructor
  · rintro ⟨hleads, hnodup, havoids⟩
    rw [Route.departures_cons] at hnodup havoids
    obtain ⟨hnot, hnodup⟩ := List.nodup_cons.mp hnodup
    refine ⟨?_, hnodup, ?_⟩
    · cases hleads with
      | step hp' h =>
          obtain rfl := Option.some.inj (hp.symm.trans hp')
          exact h
    · intro k hk hmem
      obtain rfl | hmem := List.mem_cons.mp hmem
      · exact hnot hk
      · exact havoids k (List.mem_cons_of_mem n hk) hmem
  · rintro ⟨hleads, hnodup, havoids⟩
    refine ⟨Leads.step hp hleads, ?_, ?_⟩
    · rw [Route.departures_cons, List.nodup_cons]
      exact ⟨fun hmem => havoids n hmem List.mem_cons_self, hnodup⟩
    · intro k hk
      obtain rfl | hk := List.mem_cons.mp hk
      · exact hn
      · exact fun hmem => havoids k hk (List.mem_cons_of_mem n hmem)

/-- A route stays where it is, or leaves its first node through an exit which is set. -/
theorem Approach.cases
    (h : g.Approach path n r) :
  r = .stay n
    ∨ n ∉ path ∧ ∃ p m r', (g.content n).target? p = some m ∧ r = .cons ⟨n, p⟩ r'
  := by
  obtain ⟨slots, last⟩ := r
  obtain ⟨hleads, -, havoids⟩ := h
  cases hleads with
  | refl =>
      left
      rfl
  | @step _ m _ p route hp _ =>
      right
      exact ⟨havoids n List.mem_cons_self, p, m, ⟨route, last⟩, hp, rfl⟩

/-- The routes listed are those which leave no node twice and no node of the path. -/
theorem mem_approaches_iff :
  r ∈ g.approaches path n ↔ g.Approach path n r
  := by
  induction hsize : g.unvisited path using Nat.strongRecOn generalizing n path r with
  | ind size ih =>
      by_cases hn : n ∈ path
      · rw [approaches_of_mem hn, List.mem_singleton]
        constructor
        · rintro rfl
          apply approach_stay
        · intro h
          obtain heq | ⟨hnot, -⟩ := h.cases
          · exact heq
          · exact absurd hn hnot
      · rw [approaches_of_not_mem hn, List.mem_cons, List.mem_flatMap]
        constructor
        · rintro (rfl | ⟨p, -, hr⟩)
          · apply approach_stay
          · obtain ⟨m, r', hm, hr', rfl⟩ := mem_through_iff.mp hr
            have hlt := unvisited_cons_lt (mem_nodes_of_target? hm) hn
            apply (approach_cons_iff hn hm).mpr
            apply (ih _ (hsize ▸ hlt) rfl).mp hr'
        · intro h
          obtain rfl | ⟨-, p, m, r', hm, rfl⟩ := h.cases
          · left
            rfl
          · right
            have hlt := unvisited_cons_lt (mem_nodes_of_target? hm) hn
            use p, mem_exits_of_target? hm
            apply mem_through_iff.mpr
            refine ⟨m, r', hm, (ih _ (hsize ▸ hlt) rfl).mpr ?_, rfl⟩
            apply (approach_cons_iff hn hm).mp h

/-- The approaches are listed depth first. -/
theorem pairwise_approaches
    (g : FlowGraph) (path : List Node) (n : Node) :
  (g.approaches path n).Pairwise Route.Before
  := by
  induction hsize : g.unvisited path using Nat.strongRecOn generalizing n path with
  | ind size ih =>
      by_cases hn : n ∈ path
      · rw [approaches_of_mem hn]
        apply List.pairwise_singleton
      · rw [approaches_of_not_mem hn, List.pairwise_cons, List.pairwise_flatMap]
        refine ⟨?_, ?_, ?_⟩
        · intro r hr
          obtain ⟨p, -, hr⟩ := List.mem_flatMap.mp hr
          obtain ⟨m, r', -, -, rfl⟩ := mem_through_iff.mp hr
          apply List.Lex.nil
        · intro p _
          cases hp : (g.content n).target? p with
          | none =>
              rw [through, hp]
              apply List.Pairwise.nil
          | some m =>
              have hlt := unvisited_cons_lt (mem_nodes_of_target? hp) hn
              rw [through_of_set hp, List.pairwise_map]
              apply (ih _ (hsize ▸ hlt) (n :: path) m rfl).imp
              intro r r' hbefore
              apply List.Lex.cons hbefore
        · apply ((g.kind n).pairwise_exits n).imp
          intro p q hbefore r hr r' hr'
          obtain ⟨_, _, -, -, rfl⟩ := mem_through_iff.mp hr
          obtain ⟨_, _, -, -, rfl⟩ := mem_through_iff.mp hr'
          apply List.Lex.rel hbefore

/-! ### The simple ones -/

theorem simpleRoutes_of_mem
    (h : n ∈ path) :
  g.simpleRoutes path n = []
  := by
  have hstay : (Route.stay n).isFresh path = false := by
    simp [Route.isFresh, Route.departures, Route.stay, h]
  rw [simpleRoutes, approaches_of_mem h, List.filter_cons, hstay]
  rfl

/-- Off the path, the simple routes through the exits of a node come after the route which stays
there. -/
theorem simpleRoutes_of_not_mem
    (h : n ∉ path) :
  g.simpleRoutes path n
    = .stay n :: (g.exits n).flatMap (g.through (g.simpleRoutes (n :: path)) n)
  := by
  have hstay : (Route.stay n).isFresh path = true := by
    simpa [Route.isFresh, Route.departures, Route.stay] using h
  have hthrough : ∀ p, (g.through (g.approaches (n :: path)) n p).filter (Route.isFresh path)
      = g.through (g.simpleRoutes (n :: path)) n p := by
    intro p
    have hfresh : Route.isFresh path ∘ Route.cons ⟨n, p⟩ = Route.isFresh (n :: path) := by
      funext r
      apply Route.isFresh_cons
    simp only [through, List.filter_flatMap, List.filter_map, hfresh, simpleRoutes]
  rw [simpleRoutes, approaches_of_not_mem h, List.filter_cons, if_pos hstay, List.filter_flatMap]
  simp only [hthrough]

/-- The route leads from `n` to its last node and comes to no node twice. -/
structure SimpleRoute (g : FlowGraph) (n : Node) (r : Route) : Prop where
  leads : g.Leads n r.slots r.last
  nodup : r.nodes.Nodup

/-- The list has the routes from `n` which come to no node twice, each one once, and is depth
first. -/
structure ListsSimpleRoutes (g : FlowGraph) (n : Node) (routes : List Route) : Prop where
  mem_iff : ∀ r, r ∈ routes ↔ g.SimpleRoute n r
  pairwise : routes.Pairwise Route.Before

/-- Among the approaches without a path before, the fresh ones are simple. -/
theorem mem_simpleRoutes_iff :
  r ∈ g.simpleRoutes [] n ↔ g.SimpleRoute n r
  := by
  have hnodup : r.nodes.Nodup ↔ r.departures.Nodup ∧ r.isFresh [] = true := by
    simp [Route.nodes, Route.isFresh, List.nodup_append, List.forall_mem_ne']
  rw [simpleRoutes, List.mem_filter, mem_approaches_iff]
  constructor
  · rintro ⟨⟨hleads, hdepartures, -⟩, hfresh⟩
    exact ⟨hleads, hnodup.mpr ⟨hdepartures, hfresh⟩⟩
  · rintro ⟨hleads, h⟩
    obtain ⟨hdepartures, hfresh⟩ := hnodup.mp h
    refine ⟨⟨hleads, hdepartures, ?_⟩, hfresh⟩
    intro k _
    apply List.not_mem_nil

/-- `simpleRoutes` lists the simple routes. -/
theorem listsSimpleRoutes
    (g : FlowGraph) (n : Node) :
  g.ListsSimpleRoutes n (g.simpleRoutes [] n)
  where
  mem_iff _ := mem_simpleRoutes_iff
  pairwise := (g.pairwise_approaches [] n).filter _

end FlowGraph

end MethodFlow
