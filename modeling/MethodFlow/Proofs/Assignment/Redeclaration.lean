import Mathlib.Data.List.Induction
import MethodFlow.Proofs.Assignment.Listing
import MethodFlow.Proofs.Assignment.Shortcut
import MethodFlow.Proofs.Assignment.Survey

/-!
# Declaring a variable again

A declaration without a value is noted in the innermost scope, while a read is allowed by any scope.
The innermost scope follows the status of each variable along a route, and the outer ones are what
it was whenever the route left a node (`Assignment.Layered`).  So a declaration takes the value of a
variable away (`FlowGraph.mem_unassignedReads_of_declare`), provided that the variable had no value
when the method started and whenever a node was left before the declaration: otherwise an outer
scope still allows to read the variable (`FlowGraph.unassignedReads_redeclared`).
-/

namespace MethodFlow

namespace FlowGraph

variable {g : FlowGraph} {route : List Slot} {k n m : Node} {pre post : List Observation}
  {o : Observation}

/-- Whatever happens along a route happens at the last node of a shorter one, behind what happens
along it. -/
theorem Leads.exists_last
    (h : g.Leads k route n)
    (ho : g.observations route ++ (g.content n).observations = pre ++ o :: post) :
  ∃ first m before after, g.Leads k first m ∧ first <+: route
    ∧ first.map Slot.node ++ [m] <+: route.map Slot.node ++ [n]
    ∧ (g.content m).observations = before ++ o :: after ∧ pre = g.observations first ++ before
  := by
  induction h generalizing pre with
  | refl n => exact ⟨[], n, pre, post, Leads.refl n, List.prefix_rfl, List.prefix_rfl, ho, rfl⟩
  | @step k j n p route hp h ih =>
      rw [observations_cons, List.append_assoc] at ho
      obtain ⟨after, hhere⟩ | ⟨between, rfl, hrest⟩ := append_eq_append_cons ho
      · exact ⟨[], k, pre, after, Leads.refl k, List.nil_prefix,
          List.cons_prefix_cons.mpr ⟨rfl, List.nil_prefix⟩, hhere, rfl⟩
      · obtain ⟨first, m, before, after, hfirst, hprefix, hnodes, hm, rfl⟩ := ih hrest
        use ⟨k, p⟩ :: first, m, before, after, Leads.step hp hfirst
        refine ⟨?_, ?_, hm, ?_⟩
        · apply List.cons_prefix_cons.mpr ⟨rfl, hprefix⟩
        · apply List.cons_prefix_cons.mpr ⟨rfl, hnodes⟩
        · rw [observations_cons, List.append_assoc]

end FlowGraph

namespace Assignment

variable {g : FlowGraph} {route : List Slot} {path : List Node} {n m : Node} {v : Variable}
  {scopes : List Scope} {os before after : List Observation} {o : Observation}

theorem unassignedAll_append
    (scopes : List Scope) (os os' : List Observation) :
  unassignedAll scopes (os ++ os')
    = unassignedAll scopes os ++ unassignedAll (afterAll scopes os) os'
  := by
  induction os generalizing scopes with
  | nil => rfl
  | cons o os ih =>
      rw [List.cons_append, unassignedAll, ih, unassignedAll, List.append_assoc]
      rfl

theorem mem_unassignedAll
    (hread : v ∈ o.reads) (hv : ¬ Scope.allows (afterAll scopes before) v = true) :
  .unassigned v.name ∈ unassignedAll scopes (before ++ o :: after)
  := by
  rw [unassignedAll_append, unassignedAll]
  apply List.mem_append_right
  apply List.mem_append_left
  apply List.mem_map.mpr
  use v
  simp [hread, hv]

/-- The scopes in which a visit starts behind a route. -/
def scopesBehind (g : FlowGraph) (scopes : List Scope) (route : List Slot) : List Scope :=
  route.foldl
    (fun scopes s => behind (afterAll (opened scopes) (g.content s.node).observations) s.exit)
    scopes

/-- Whatever is found at the last node of a simple route off the path is found. -/
theorem mem_explore_of_leads
    (hwired : g.WiredFrom n) (hroute : g.Leads n route m)
    (hnodup : (route.map Slot.node ++ [m]).Nodup)
    (hpath : ∀ k ∈ route.map Slot.node ++ [m], k ∉ path) {f : Finding}
    (hf : f ∈ unassignedAll (opened (scopesBehind g scopes route)) (g.content m).observations) :
  f ∈ (explore g path scopes n).findings
  := by
  have hfailure : ∀ (n : Node) (path : List Node) (scopes : List Scope), g.WiredFrom n →
      ∀ p ∈ g.exits n, (exploreExit g path scopes n p).failure = none := by
    intro n path scopes hwired p hp
    obtain ⟨k, hk⟩ := hwired n Relation.ReflTransGen.refl p hp
    rw [exploreExit_eq hk]
    apply failure_explore (hwired.of_target? hk)
  induction hroute generalizing path scopes with
  | refl n =>
      have hn : n ∉ path := hpath n (List.mem_singleton_self n)
      rw [explore_eq_of_failure hn (hfailure n _ _ hwired)]
      apply List.mem_append_left _ hf
  | @step n k m p route hp hroute ih =>
      rw [List.map_cons, List.cons_append] at hnodup hpath
      obtain ⟨hnot, hnodup⟩ := List.nodup_cons.mp hnodup
      rw [explore_eq_of_failure (hpath n List.mem_cons_self) (hfailure n _ _ hwired)]
      apply List.mem_append_right
      apply List.mem_flatMap.mpr
      use p, FlowGraph.mem_exits_of_target? hp
      rw [exploreExit_eq hp]
      apply ih (hwired.of_target? hp) hnodup _ hf
      intro j hj hmem
      obtain rfl | hmem := List.mem_cons.mp hmem
      · apply hnot hj
      · apply hpath j (List.mem_cons_of_mem n hj) hmem

/-! ### What the scopes say along a route -/

/-- The innermost scope says what the status of each variable is behind the route, and an outer one
allows to read what had a value at the start or when some node of the route was left. -/
structure Layered (g : FlowGraph) (route : List Slot) (scopes : List Scope) : Prop where
  inner : ∀ v, (scopes.headD []).status v = g.status v (g.observations route)
  outer : ∀ v, Scope.allows scopes v = true →
    ∃ k ≤ route.length, g.status v (g.observations (route.take k)) = .assigned

/-- At the start, there is only the scope of the parameters. -/
theorem layered_ofParameters
    (g : FlowGraph) :
  Layered g [] [Scope.ofParameters g.parameters]
  where
  inner v := Scope.status_ofParameters g.parameters v
  outer v hv := by
    use 0, Nat.le_refl 0
    rw [Scope.allows, List.any_cons, List.any_nil, Bool.or_false, Scope.hasValue_iff] at hv
    rw [← hv]
    symm
    apply Scope.status_ofParameters g.parameters v

/-- At a node, the scope which was opened says what the status of each variable is. -/
theorem Layered.exists_scope
    (h : Layered g route scopes) (os : List Observation) :
  ∃ sc, afterAll (opened scopes) os = sc :: scopes
    ∧ ∀ v, sc.status v = g.status v (g.observations route ++ os)
  := by
  induction os using List.reverseRecOn with
  | nil =>
      use scopes.headD [], rfl
      rw [List.append_nil]
      apply h.inner
  | append_singleton os o ih =>
      obtain ⟨sc, hsc, hstatus⟩ := ih
      have hafter : afterAll (opened scopes) (os ++ [o]) = Assignment.after (sc :: scopes) o := by
        rw [← hsc]
        simp [afterAll]
      rw [hafter]
      cases o with
      | act a =>
          use sc.run a, rfl
          intro v
          rw [← List.append_assoc, FlowGraph.status_concat, ← hstatus, Scope.status_run]
      | test c =>
          use sc, rfl
          intro v
          rw [← List.append_assoc, FlowGraph.status_concat, ← hstatus]
          rfl

/-- At a node, a variable may be read only if it has a value, or had one at the start or when some
node of the route was left. -/
theorem Layered.of_allows
    (h : Layered g route scopes) (hv : Scope.allows (afterAll (opened scopes) os) v = true) :
  g.status v (g.observations route ++ os) = .assigned
    ∨ ∃ k ≤ route.length, g.status v (g.observations (route.take k)) = .assigned
  := by
  obtain ⟨sc, hsc, hstatus⟩ := h.exists_scope os
  rw [hsc, Scope.allows, List.any_cons, Bool.or_eq_true, Scope.hasValue_iff, hstatus] at hv
  apply hv.imp_right (h.outer v)

/-- The scopes are layered in the same way behind a further node. -/
theorem Layered.concat
    (h : Layered g route scopes) (s : Slot) :
  Layered g (route ++ [s])
    (behind (afterAll (opened scopes) (g.content s.node).observations) s.exit)
  := by
  have hinside : Layered g (route ++ [s])
      (afterAll (opened scopes) (g.content s.node).observations) := by
    have hobservations : g.observations (route ++ [s])
        = g.observations route ++ (g.content s.node).observations := by
      simp [FlowGraph.observations]
    constructor
    · obtain ⟨sc, hsc, hstatus⟩ := h.exists_scope (g.content s.node).observations
      rw [hsc, hobservations]
      apply hstatus
    · intro v hv
      obtain hv | ⟨k, hk, hv⟩ := h.of_allows hv
      · use (route ++ [s]).length, Nat.le_refl _
        rwa [List.take_length, hobservations]
      · use k
        rw [List.length_append, List.take_append_of_le_length hk]
        exact ⟨Nat.le_add_right_of_le hk, hv⟩
  generalize afterAll (opened scopes) (g.content s.node).observations = scopes' at hinside
  cases s.exit with
  | next => apply hinside
  | _ =>
      constructor
      · apply hinside.inner
      · intro v hv
        rw [behind, allows_opened] at hv
        apply hinside.outer v hv

/-- The scopes behind a route are layered along it. -/
theorem layered_scopesBehind
    (g : FlowGraph) (route : List Slot) :
  Layered g route (scopesBehind g [Scope.ofParameters g.parameters] route)
  := by
  induction route using List.reverseRecOn with
  | nil => apply layered_ofParameters
  | append_singleton route s ih =>
      rw [scopesBehind, List.foldl_concat]
      apply ih.concat s

end Assignment

namespace FlowGraph

variable {g : FlowGraph} {r : Route} {route : List Slot} {v w : Variable} {t : Primitive}
  {before between after : List Observation} {o : Observation} {findings : List Finding}

/-- A variable has no value behind a declaration without one. -/
theorem status_declare
    (g : FlowGraph) (t : Primitive) (hw : w.id = v.id) (before : List Observation)
    (h : Status.Quiet v between) :
  g.status v (before ++ .act (.declare t w) :: between) = .unassigned
  := by
  have hdeclare : Status.after v (g.status v before) (.act (.declare t w)) = .unassigned := by
    simp [Status.after, hw]
  rw [← List.singleton_append, ← List.append_assoc, status, Status.afterAll_append]
  change Status.afterAll v (g.status v (before ++ [.act (.declare t w)])) between = _
  rw [status_concat, hdeclare]
  apply h.afterAll_eq

/-- If a variable had no value whenever a node was left before the declaration, it had none either
whenever one was left since, as nothing gave a value to it. -/
theorem status_take_ne_assigned
    (hw : w.id = v.id) (hbetween : Status.Quiet v between)
    (hroute : g.observations route <+: before ++ .act (.declare t w) :: between)
    (hfree : ∀ k ≤ route.length, (g.observations (route.take k)).length ≤ before.length →
      g.status v (g.observations (route.take k)) ≠ .assigned)
    {k : Nat} (hk : k ≤ route.length) :
  g.status v (g.observations (route.take k)) ≠ .assigned
  := by
  -- The node was left before the declaration, or the declaration and only quiet things happened.
  by_cases hlength : (g.observations (route.take k)).length ≤ before.length
  · apply hfree k hk hlength
  · have hprefix : g.observations (route.take k) <+: before ++ .act (.declare t w) :: between := by
      apply List.IsPrefix.trans _ hroute
      nth_rewrite 2 [← List.take_append_drop k route]
      rw [observations_append]
      apply List.prefix_append
    obtain ⟨rest, hrest⟩ := hprefix
    obtain ⟨since, hsince⟩ | ⟨passed, rfl, -⟩ := append_eq_append_cons hrest
    · rw [hsince, List.append_assoc, List.append_cancel_left_eq, List.cons_append] at hrest
      obtain ⟨-, rfl⟩ := List.cons.inj hrest
      rw [hsince, g.status_declare t hw before (Status.quiet_append.mp hbetween).1]
      decide
    · rw [List.length_append] at hlength
      omega

/-- If a variable is declared without a value along a simple route and read later on, and nothing
gives a value to it in between, then it is found, provided that it had no value at the start and
when the nodes before the declaration were left. -/
theorem mem_unassignedReads_of_declare
    (hfindings : g.unassignedReads = .ok findings) (hroute : g.SimpleRoute .start r)
    (hhappens : g.observations r.slots ++ (g.content r.last).observations
      = before ++ .act (.declare t w) :: (between ++ o :: after))
    (hw : w.id = v.id) (hbetween : Status.Quiet v between) (hread : v ∈ o.reads)
    (hfree : ∀ k ≤ r.slots.length, (g.observations (r.slots.take k)).length ≤ before.length →
      g.status v (g.observations (r.slots.take k)) ≠ .assigned) :
  .unassigned v.name ∈ findings
  := by
  have hwired := wired_of_unassignedReads hfindings
  have hreport : findings = (Assignment.report g).findings := by
    rw [unassignedReads_eq, Assignment.report, Assignment.failure_explore hwired] at hfindings
    apply (Except.ok.inj hfindings).symm
  have hsplit : g.observations r.slots ++ (g.content r.last).observations
      = (before ++ .act (.declare t w) :: between) ++ o :: after := by
    rw [hhappens, List.append_assoc, List.cons_append]
  obtain ⟨first, m, here, rest, hfirst, hprefix, hnodes, hm, hpre⟩ :=
    hroute.leads.exists_last hsplit
  obtain ⟨later, hlater⟩ := hprefix
  rw [hreport, Assignment.report]
  apply Assignment.mem_explore_of_leads hwired hfirst
  · apply hroute.nodup.sublist hnodes.sublist
  · intro k _
    apply List.not_mem_nil
  · rw [hm]
    apply Assignment.mem_unassignedAll hread
    intro hallows
    obtain hassigned | ⟨k, hk, hassigned⟩ :=
      (Assignment.layered_scopesBehind g first).of_allows hallows
    · rw [← hpre, g.status_declare t hw before hbetween] at hassigned
      contradiction
    · have hfree' : ∀ j ≤ first.length, (g.observations (first.take j)).length ≤ before.length →
          g.status v (g.observations (first.take j)) ≠ .assigned := by
        intro j hj
        have htake : r.slots.take j = first.take j := by
          rw [← hlater, List.take_append_of_le_length hj]
        rw [← htake]
        apply hfree j
        rw [← hlater, List.length_append]
        omega
      have hbehind : g.observations first <+: before ++ .act (.declare t w) :: between := by
        rw [hpre]
        apply List.prefix_append
      apply status_take_ne_assigned hw hbetween hbehind hfree' hk hassigned

/-- The graph of a method with a parameter `p` which, in a loop, declares `x`, gives a value to it,
declares it again and reads it, and comes back to an empty block. -/
def redeclaredInLoop : FlowGraph where
  parameters := [⟨⟨0, "p"⟩, .bool⟩]
  entry := some (.inner 0)
  cells := #[
    .block [] (some (.inner 1)),
    .jump (.read ⟨0, "p"⟩) (some (.inner 2)) (some .stop),
    .block [.declare .int ⟨1, "x"⟩, .assign ⟨1, "x"⟩ (.int 1), .declare .int ⟨1, "x"⟩]
      (some (.inner 3)),
    .block [.eval (.read ⟨1, "x"⟩)] (some (.inner 0))]

/-- The route along which `x` is read. -/
def redeclaredRoute : Route where
  slots := [⟨.start, .next⟩, ⟨.inner 0, .next⟩, ⟨.inner 1, .ifTrue⟩, ⟨.inner 2, .next⟩]
  last := .inner 3

/-- The declaration behind the assignment takes the value of `x` away, so `x` is found. -/
theorem mem_unassignedReads_of_declare_redeclaredInLoop :
  redeclaredInLoop.unassignedReads = .ok [.unassigned "x"]
    ∧ redeclaredInLoop.SimpleRoute .start redeclaredRoute
    ∧ .unassigned "x" ∈ [Finding.unassigned "x"]
  := by
  have hfindings : redeclaredInLoop.unassignedReads = .ok [.unassigned "x"] := rfl
  have hroute : redeclaredInLoop.SimpleRoute .start redeclaredRoute := by
    constructor
    · iterate 4 apply Leads.step rfl
      apply Leads.refl
    · decide
  have hhappens : redeclaredInLoop.observations redeclaredRoute.slots
      ++ (redeclaredInLoop.content redeclaredRoute.last).observations
      = [.test (.read ⟨0, "p"⟩), .act (.declare .int ⟨1, "x"⟩),
          .act (.assign ⟨1, "x"⟩ (.int 1))]
        ++ .act (.declare .int ⟨1, "x"⟩) :: ([] ++ .act (.eval (.read ⟨1, "x"⟩)) :: []) := rfl
  have hquiet : Status.Quiet ⟨1, "x"⟩ [] := by
    intro o ho
    contradiction
  have hfree : ∀ k ≤ redeclaredRoute.slots.length,
      (redeclaredInLoop.observations (redeclaredRoute.slots.take k)).length ≤ 3 →
        redeclaredInLoop.status ⟨1, "x"⟩
          (redeclaredInLoop.observations (redeclaredRoute.slots.take k)) ≠ .assigned := by
    decide
  use hfindings, hroute
  apply mem_unassignedReads_of_declare hfindings hroute hhappens rfl hquiet _ hfree
  apply List.mem_cons_self

/-- The graph of a method whose second block declares `x` and reads it. -/
def redeclaredBehind (parameters : List Parameter) (first : List Action) : FlowGraph where
  parameters := parameters
  entry := some (.inner 0)
  cells := #[
    .block first (some (.inner 1)),
    .block [.declare .int ⟨0, "x"⟩, .eval (.read ⟨0, "x"⟩)] (some .stop)]

/-- A parameter keeps its value when it is declared again, and so does a variable which had a value
when an earlier block was left: the read behind the declaration is not found, as it is where nothing
was said of the variable before. -/
theorem unassignedReads_redeclared :
  (∀ parameters first, (redeclaredBehind parameters first).SimpleRoute .start
      ⟨[⟨.start, .next⟩, ⟨.inner 0, .next⟩], .inner 1⟩
    ∧ ((redeclaredBehind parameters first).content (.inner 1)).observations
      = [.act (.declare .int ⟨0, "x"⟩), .act (.eval (.read ⟨0, "x"⟩))])
    ∧ (redeclaredBehind [⟨⟨0, "x"⟩, .int⟩] []).unassignedReads = .ok []
    ∧ (redeclaredBehind [] [.define (some .int) ⟨0, "x"⟩ (.int 1)]).unassignedReads = .ok []
    ∧ (redeclaredBehind [] []).unassignedReads = .ok [.unassigned "x"]
  := by
  refine ⟨?_, rfl, rfl, rfl⟩
  intro parameters first
  constructor
  · constructor
    · iterate 2 apply Leads.step rfl
      apply Leads.refl
    · decide
  · rfl

end FlowGraph

end MethodFlow
