import Mathlib.Logic.Relation
import Mathlib.Tactic.Common
import MethodFlow.Graph.Basic

/-!
# Runs of a flow graph

A run of a flow graph follows slots from node to node.  `FlowGraph.Leads` says along which slots a
node leads to another one, `FlowGraph.Run` which outcomes of conditions such a route takes and what
it lets one observe on the way: the actions carried out and the conditions evaluated.  Empty blocks
are passed without an observation.
-/

namespace MethodFlow

/-- Something which happens while a method runs. -/
inductive Observation where
  /-- An action was carried out. -/
  | act (action : Action)
  /-- A condition was evaluated. -/
  | test (condition : Expr)

/-- The variables read when something happens, from left to right. -/
def Observation.reads : Observation → List Variable
  | .act a => a.reads
  | .test c => c.reads

/-- What happens at a node, in order. -/
def Content.observations : Content → List Observation
  | .block actions _ => actions.map .act
  | .jump condition _ _ => [.test condition]
  | _ => []

theorem Content.observations_eq
    (c : Content) :
  c.observations = c.actions.map .act ++ c.condition?.toList.map .test
  := by
  cases c <;> simp [observations, actions, condition?]

/-- The outcomes of the condition of a node for which an exit is taken. -/
def Exit.outcomes : Exit → List Bool
  | .next => []
  | .ifTrue => [true]
  | .ifFalse => [false]

/-- What stands in a list of two parts stands in the first or in the second. -/
theorem append_eq_append_cons
    {α : Type} {first second before after : List α} {x : α}
    (h : first ++ second = before ++ x :: after) :
  (∃ after', first = before ++ x :: after')
    ∨ ∃ before', before = first ++ before' ∧ second = before' ++ x :: after
  := by
  obtain ⟨before', hbefore, hsecond⟩ | ⟨after', hfirst, hafter⟩ := List.append_eq_append_iff.mp h
  · right
    exact ⟨before', hbefore, hsecond⟩
  · cases after' with
    | nil =>
        right
        use []
        simp_all
    | cons x' after' =>
        left
        obtain ⟨rfl, -⟩ := List.cons.inj hafter
        exact ⟨after', hfirst⟩

namespace FlowGraph

variable {g : FlowGraph} {n k m : Node}

/-- Some exit of `n` leads to `m`. -/
def Edge (g : FlowGraph) (n m : Node) : Prop :=
  ∃ p, (g.content n).target? p = some m

/-- `m` can be reached from `n`. -/
def Reaches (g : FlowGraph) : Node → Node → Prop :=
  Relation.ReflTransGen g.Edge

theorem Reaches.mem_of_closed
    {V : List Node} (h : g.Reaches n m) (hn : n ∈ V)
    (hclosed : ∀ k ∈ V, ∀ j, g.Edge k j → j ∈ V) :
  m ∈ V
  := by
  induction h with
  | refl => exact hn
  | tail _ hedge ih => exact hclosed _ ih _ hedge

/-- Every slot of a node which can be reached from `n` is set. -/
def WiredFrom (g : FlowGraph) (n : Node) : Prop :=
  ∀ m, g.Reaches n m → ∀ p ∈ g.exits m, ∃ k, (g.content m).target? p = some k

/-- Every slot of a node which can be reached from the start is set. -/
def Wired (g : FlowGraph) : Prop :=
  g.WiredFrom .start

theorem WiredFrom.of_target?
    (h : g.WiredFrom n) {p : Exit} (hp : (g.content n).target? p = some k) :
  g.WiredFrom k
  := by
  intro m hm
  apply h m
  apply Relation.ReflTransGen.head ⟨p, hp⟩ hm

/-- The slots `route`, one after the other, lead from the first node to the second. -/
inductive Leads (g : FlowGraph) : Node → List Slot → Node → Prop where
  | refl (n : Node) : Leads g n [] n
  | step {n k m : Node} {p : Exit} {route : List Slot}
      (hp : (g.content n).target? p = some k) (h : Leads g k route m) :
      Leads g n (⟨n, p⟩ :: route) m

/-- The outcomes for which a route is taken. -/
def outcomes (route : List Slot) : List Bool :=
  route.flatMap fun s => s.exit.outcomes

/-- What happens along a route. -/
def observations (g : FlowGraph) (route : List Slot) : List Observation :=
  route.flatMap fun s => (g.content s.node).observations

@[simp]
theorem outcomes_cons
    (s : Slot) (route : List Slot) :
  outcomes (s :: route) = s.exit.outcomes ++ outcomes route
  := by
  simp [outcomes]

@[simp]
theorem observations_cons
    (s : Slot) (route : List Slot) :
  g.observations (s :: route) = (g.content s.node).observations ++ g.observations route
  := by
  simp [observations]

@[simp]
theorem outcomes_append
    (route route' : List Slot) :
  outcomes (route ++ route') = outcomes route ++ outcomes route'
  := by
  simp [outcomes]

@[simp]
theorem observations_append
    (route route' : List Slot) :
  g.observations (route ++ route') = g.observations route ++ g.observations route'
  := by
  simp [observations]

theorem Leads.trans
    {route route' : List Slot} (h : g.Leads n route k) (h' : g.Leads k route' m) :
  g.Leads n (route ++ route') m
  := by
  induction h with
  | refl n => apply h'
  | step hp h ih => apply Leads.step hp (ih h')

/-- A route takes its last slot where the slots before lead. -/
theorem leads_concat_iff
    {route : List Slot} {s : Slot} :
  g.Leads n (route ++ [s]) m
    ↔ g.Leads n route s.node ∧ (g.content s.node).target? s.exit = some m
  := by
  constructor
  · intro h
    induction route generalizing n with
    | nil =>
        cases h with
        | step hp h =>
            cases h
            exact ⟨Leads.refl n, hp⟩
    | cons _ route ih =>
        cases h with
        | step hp h =>
            obtain ⟨hbefore, hlast⟩ := ih h
            exact ⟨Leads.step hp hbefore, hlast⟩
  · rintro ⟨hbefore, hlast⟩
    apply hbefore.trans (Leads.step hlast (Leads.refl m))

/-- A route is divided at each node to which it comes. -/
theorem Leads.exists_split
    {route : List Slot} (h : g.Leads n route m) (hk : k ∈ route.map Slot.node ++ [m]) :
  ∃ first second, route = first ++ second ∧ g.Leads n first k ∧ g.Leads k second m
  := by
  induction h with
  | refl m =>
      obtain rfl : k = m := by simpa using hk
      exact ⟨[], [], rfl, Leads.refl k, Leads.refl k⟩
  | @step n j m p route hp h ih =>
      rw [List.map_cons, List.cons_append, List.mem_cons] at hk
      obtain rfl | hk := hk
      · exact ⟨[], _, rfl, Leads.refl k, Leads.step hp h⟩
      · obtain ⟨first, second, rfl, hfirst, hsecond⟩ := ih hk
        exact ⟨⟨n, p⟩ :: first, second, rfl, Leads.step hp hfirst, hsecond⟩

/-- What goes back along each slot of a route goes from the last node back to the others. -/
theorem Leads.forall_of_last
    {P : Node → Prop} {route : List Slot} (h : g.Leads n route m) (hm : P m)
    (hback : ∀ s ∈ route, ∀ k, (g.content s.node).target? s.exit = some k → P k → P s.node) :
  P n ∧ ∀ s ∈ route, P s.node
  := by
  induction h with
  | refl n => simp [hm]
  | @step n k m p route hp h ih =>
      obtain ⟨hk, hroute⟩ := ih hm fun s hs => hback s (List.mem_cons_of_mem _ hs)
      have hn : P n := hback ⟨n, p⟩ List.mem_cons_self k hp hk
      use hn
      intro s hs
      obtain rfl | hs := List.mem_cons.mp hs
      · apply hn
      · apply hroute s hs

theorem Leads.reaches
    {route : List Slot} (h : g.Leads n route m) :
  g.Reaches n m
  := by
  induction h with
  | refl n => apply Relation.ReflTransGen.refl
  | step hp h ih => apply Relation.ReflTransGen.head ⟨_, hp⟩ ih

/-- Whatever can be reached is reached along some route. -/
theorem Reaches.exists_leads
    (h : g.Reaches n m) :
  ∃ route, g.Leads n route m
  := by
  induction h using Relation.ReflTransGen.head_induction_on with
  | refl =>
      use []
      apply Leads.refl
  | @head n _ hedge _ ih =>
      obtain ⟨p, hp⟩ := hedge
      obtain ⟨route, hroute⟩ := ih
      use ⟨n, p⟩ :: route
      apply Leads.step hp hroute

/-- Some route leads from `n` to `m` under the outcomes `os`, and `es` is what happens along it. -/
def Run (g : FlowGraph) (n : Node) (os : List Bool) (es : List Observation) (m : Node) : Prop :=
  ∃ route, g.Leads n route m ∧ outcomes route = os ∧ g.observations route = es

theorem Run.refl
    (n : Node) :
  g.Run n [] [] n
  := ⟨[], Leads.refl n, rfl, rfl⟩

theorem Run.step
    {p : Exit} {os : List Bool} {es : List Observation}
    (hp : (g.content n).target? p = some k) (h : g.Run k os es m) :
  g.Run n (p.outcomes ++ os) ((g.content n).observations ++ es) m
  := by
  obtain ⟨route, hroute, rfl, rfl⟩ := h
  use ⟨n, p⟩ :: route, Leads.step hp hroute
  simp

theorem Run.trans
    {os os' : List Bool} {es es' : List Observation} (h : g.Run n os es k)
    (h' : g.Run k os' es' m) :
  g.Run n (os ++ os') (es ++ es') m
  := by
  obtain ⟨route, hroute, rfl, rfl⟩ := h
  obtain ⟨route', hroute', rfl, rfl⟩ := h'
  use route ++ route', hroute.trans hroute'
  simp

/-- A node can be reached exactly when some run comes to it. -/
theorem reaches_iff_exists_run :
  g.Reaches n m ↔ ∃ os es, g.Run n os es m
  := by
  constructor
  · intro h
    obtain ⟨route, hroute⟩ := h.exists_leads
    exact ⟨_, _, route, hroute, rfl, rfl⟩
  · intro ⟨_, _, route, hroute, _, _⟩
    apply hroute.reaches

end FlowGraph

end MethodFlow
