import MethodFlow.Assignment.Check
import MethodFlow.Proofs.Graph.Run
import MethodFlow.Proofs.Graph.Unvisited

/-!
# What the check of definite assignment reports

`Assignment.explore` is what a visit of the check finds behind a node, given the path to the node
and the scopes in force, as a function which keeps no state and knows no depth.
`Assignment.explores_nest` says that a visit appends what `explore` reports to the findings and
leaves the path and the scopes as they were, also when it fails; `Assignment.visit_brackets` says so
of a visit from any state.
-/

namespace MethodFlow

namespace Assignment

/-- What a visit adds to the findings, and why it failed, if so. -/
structure Report where
  findings : List Finding
  failure : Option Failure

namespace Report

/-- Nothing found, and no failure. -/
def clear : Report :=
  ⟨[], none⟩

/-- Only a failure. -/
def fail (e : Failure) : Report :=
  ⟨[], some e⟩

/-- One report after another.  Nothing comes after a failure. -/
def andThen (r r' : Report) : Report :=
  match r.failure with
  | some _ => r
  | none => ⟨r.findings ++ r'.findings, r'.failure⟩

/-- Several reports, one after the other. -/
def all : List Report → Report :=
  List.foldr andThen clear

end Report

/-- The state with further findings. -/
def add (s : State) (findings : List Finding) : State :=
  { s with work := { s.work with findings := s.work.findings ++ findings } }

/-- What a computation which only reports comes to. -/
def Report.result (r : Report) (s : State) : EStateM.Result Failure State Unit :=
  match r.failure with
  | some e => .error e (add s r.findings)
  | none => .ok () (add s r.findings)

/-- The scopes with a copy of the innermost one on top. -/
def opened (scopes : List Scope) : List Scope :=
  scopes.headD [] :: scopes

/-- The scopes after something happened. -/
def after (scopes : List Scope) : Observation → List Scope
  | .act a => scopes.modifyHead (·.run a)
  | .test _ => scopes

/-- The scopes after all of a list happened. -/
def afterAll (scopes : List Scope) (os : List Observation) : List Scope :=
  os.foldl after scopes

/-- What is found when something happens: the variables it reads which have no value. -/
def unassigned (scopes : List Scope) (o : Observation) : List Finding :=
  (o.reads.filter (!Scope.allows scopes ·)).map fun v => .unassigned v.name

/-- What is found while all of a list happens. -/
def unassignedAll (scopes : List Scope) : List Observation → List Finding
  | [] => []
  | o :: os => unassigned scopes o ++ unassignedAll (after scopes o) os

/-- The scopes in which a visit starts behind an exit. -/
def behind (scopes : List Scope) : Exit → List Scope
  | .next => scopes
  | .ifTrue | .ifFalse => opened scopes

/-- What is found from a node on, each node being met at most once on a path. -/
def explore (g : FlowGraph) (path : List Node) (scopes : List Scope) (n : Node) : Report :=
  if n ∈ path then
    .clear
  else
    Report.andThen ⟨unassignedAll (opened scopes) (g.content n).observations, none⟩ <|
      .all <| (g.exits n).attach.map fun ⟨p, _⟩ =>
        match g.target ⟨n, p⟩ with
        | .ok m =>
          explore g (n :: path)
            (behind (afterAll (opened scopes) (g.content n).observations) p) m
        | .error e => .fail e
termination_by g.unvisited path
decreasing_by
  apply FlowGraph.unvisited_cons_lt
  · apply FlowGraph.mem_nodes_of_mem_exits
    assumption
  · assumption

/-- What is found behind an exit of a node. -/
def exploreExit (g : FlowGraph) (path : List Node) (scopes : List Scope) (n : Node) (p : Exit) :
    Report :=
  match g.target ⟨n, p⟩ with
  | .ok m => explore g path (behind scopes p) m
  | .error e => .fail e

variable {g : FlowGraph} {path : List Node} {scopes : List Scope} {n : Node}

theorem explore_of_mem
    (h : n ∈ path) :
  explore g path scopes n = .clear
  := by
  rw [explore, if_pos h]

/-- At a node which is not on the path, what its actions or its condition read comes first, then
what is behind its exits. -/
theorem explore_of_not_mem
    (h : n ∉ path) :
  explore g path scopes n
    = Report.andThen ⟨unassignedAll (opened scopes) (g.content n).observations, none⟩
        (.all ((g.exits n).map (exploreExit g (n :: path)
          (afterAll (opened scopes) (g.content n).observations) n)))
  := by
  rw [explore, if_neg h]
  rw [← List.attach_map_val (f := exploreExit g (n :: path) _ n)]
  rfl

/-! ### Reports and states -/

@[simp]
theorem add_nil
    (s : State) :
  add s [] = s
  := by
  simp [add]

@[simp]
theorem add_add
    (s : State) (fs fs' : List Finding) :
  add (add s fs) fs' = add s (fs ++ fs')
  := by
  have happend : s.work.findings ++ fs ++ fs' = s.work.findings ++ (fs ++ fs') := by
    apply Array.ext'
    simp
  simp only [add, happend]

@[simp]
theorem Report.result_clear
    (s : State) :
  Report.clear.result s = .ok () s
  := by
  simp [result, clear]

theorem Report.result_andThen
    (r r' : Report) (s : State) :
  (r.andThen r').result s
    = match r.result s with
      | .ok _ s' => r'.result s'
      | .error e s' => .error e s'
  := by
  obtain ⟨findings, failure⟩ := r
  cases failure <;> simp [andThen, result]

theorem Report.result_cases
    (r : Report) (s : State) :
  r.result s = .ok () (add s r.findings) ∨ ∃ e, r.result s = .error e (add s r.findings)
  := by
  obtain ⟨findings, failure⟩ := r
  cases failure with
  | some e => apply Or.inr ⟨e, rfl⟩
  | none => apply Or.inl rfl

@[simp]
theorem Report.result_all_singleton
    (r : Report) (s : State) :
  (Report.all [r]).result s = r.result s
  := by
  change (r.andThen clear).result s = _
  rw [result_andThen]
  cases r.result s <;> simp

@[simp]
theorem Report.result_all_pair
    (r r' : Report) (s : State) :
  (Report.all [r, r']).result s
    = match r.result s with
      | .ok _ s' => r'.result s'
      | .error e s' => .error e s'
  := by
  change (r.andThen (Report.all [r'])).result s = _
  rw [result_andThen]
  cases r.result s <;> simp

/-- What happens at a node changes the innermost scope only. -/
@[simp]
theorem tail_afterAll
    (scopes : List Scope) (os : List Observation) :
  (afterAll scopes os).tail = scopes.tail
  := by
  induction os generalizing scopes with
  | nil => rfl
  | cons o os ih =>
      apply (ih (after scopes o)).trans
      cases o with
      | act a => cases scopes <;> rfl
      | test c => rfl

/-- The work after all of a list happened at a node. -/
def Work.meet (w : Work) (os : List Observation) : Work :=
  ⟨afterAll w.scopes os, w.findings ++ unassignedAll w.scopes os⟩

@[simp]
theorem Work.meet_nil
    (w : Work) :
  w.meet [] = w
  := by
  simp [meet, afterAll, unassignedAll]

/-- Running the actions of a block reports what they read and changes the scopes. -/
theorem Work.foldl_run
    (w : Work) (actions : List Action) :
  actions.foldl Work.run w = w.meet (actions.map .act)
  := by
  induction actions generalizing w with
  | nil => simp
  | cons a actions ih =>
      rw [List.foldl_cons, ih]
      have happend : ∀ fs fs' : List Finding,
          w.findings ++ fs ++ fs' = w.findings ++ (fs ++ fs') := by
        intro fs fs'
        apply Array.ext'
        simp
      simp [run, reportReads, modifyTop, meet, afterAll, unassignedAll, after, unassigned,
        Observation.reads, happend]

theorem Work.reportReads_eq
    (w : Work) (condition : Expr) :
  w.reportReads condition.reads = w.meet [.test condition]
  := by
  simp [reportReads, meet, afterAll, unassignedAll, after, unassigned, Observation.reads]

/-! ### The visits of the check -/

/-- The visitor adds to the findings what `explore` reports, wherever the path to it is `path`. -/
def Explores (g : FlowGraph) (path : List Node) (visit : Node → Check Unit) : Prop :=
  ∀ (m : Node) (s : State), s.trail.nodes = path →
    visit m s = (explore g path s.work.scopes m).result s

/-- A computation in a scope of its own adds to the findings what it adds to them there. -/
theorem inScope_apply
    {act : Check Unit} {s : State} {r : Report} (scopes : List Scope)
    (h : act { s with work := s.work.open } = r.result { s with work := { s.work with scopes } })
    (hscopes : scopes.tail = s.work.scopes) :
  inScope act s = r.result s
  := by
  simp only [inScope, Walk.within, h]
  obtain ⟨findings, failure⟩ := r
  cases failure <;> simp [Report.result, add, Work.close, hscopes]

variable {visit : Node → Check Unit}

theorem visit_target_apply
    (hvisit : Explores g path visit) {s : State} (hs : s.trail.nodes = path) :
  (do visit (← Walk.target g ⟨n, .next⟩) : Check Unit) s
    = (exploreExit g path s.work.scopes n .next).result s
  := by
  rw [Walk.bind_apply, Walk.target_apply, exploreExit]
  cases g.target ⟨n, .next⟩ with
  | ok m => apply hvisit m s hs
  | error e => simp [Report.result, Report.fail]

/-- Following a branch of a jump adds what is found behind it. -/
theorem follow_apply
    (hvisit : Explores g path visit) {s : State} (hs : s.trail.nodes = path) {p : Exit}
    (hp : p ≠ .next) :
  follow g visit ⟨n, p⟩ s = (exploreExit g path s.work.scopes n p).result s
  := by
  have hbehind : behind s.work.scopes p = opened s.work.scopes := by
    cases p with
    | next => contradiction
    | _ => rfl
  rw [follow, Walk.bind_apply, Walk.target_apply, exploreExit, hbehind]
  cases g.target ⟨n, p⟩ with
  | ok m =>
      apply inScope_apply (opened s.work.scopes)
      · apply hvisit m { s with work := s.work.open } hs
      · rfl
  | error e => simp [Report.result, Report.fail]

/-- Following both branches of a jump adds what is found behind the one and then behind the
other. -/
theorem follow_both_apply
    (hvisit : Explores g path visit) {s : State} (hs : s.trail.nodes = path) :
  (do follow g visit ⟨n, .ifTrue⟩; follow g visit ⟨n, .ifFalse⟩) s
    = (Report.all [exploreExit g path s.work.scopes n .ifTrue,
        exploreExit g path s.work.scopes n .ifFalse]).result s
  := by
  rw [Walk.bind_apply, Report.result_all_pair, follow_apply hvisit hs (by decide)]
  rcases Report.result_cases (exploreExit g path s.work.scopes n .ifTrue) s with hok | ⟨e, herror⟩
  · rw [hok]
    apply follow_apply (s := add s _) hvisit hs (by decide)
  · rw [herror]

/-- What a visit of the check does at a node it enters. -/
def inside (g : FlowGraph) (visit : Node → Check Unit) (n : Node) : Check Unit :=
  match g.content n with
  | .start _ => do visit (← Walk.target g ⟨n, .next⟩)
  | .stop => pure ()
  | .block actions _ => do
    Walk.work fun w => actions.foldl Work.run w
    visit (← Walk.target g ⟨n, .next⟩)
  | .jump condition _ _ => do
    Walk.work (·.reportReads condition.reads)
    follow g visit ⟨n, .ifTrue⟩
    follow g visit ⟨n, .ifFalse⟩

/-- At a node it enters, a visit adds what the node reads and what is behind its exits. -/
theorem inside_apply
    (n : Node) (hvisit : g.exits n ≠ [] → Explores g path visit) {s : State}
    (hs : s.trail.nodes = path) :
  inside g visit n s
    = (Report.all ((g.exits n).map (exploreExit g path
        (afterAll s.work.scopes (g.content n).observations) n))).result
      { s with work := s.work.meet (g.content n).observations }
  := by
  have hexits : g.exits n = (g.content n).kind.exits := rfl
  unfold inside
  rw [hexits] at hvisit ⊢
  generalize g.content n = c at hvisit ⊢
  cases c with
  | start next =>
      simp only [Content.observations, Content.kind, Kind.exits, Work.meet_nil, List.map_cons,
        List.map_nil, Report.result_all_singleton]
      apply visit_target_apply (hvisit (List.cons_ne_nil _ _)) hs
  | stop => simp [Content.observations, Content.kind, Kind.exits, Report.all]
  | block actions next =>
      simp only [Content.observations, Content.kind, Kind.exits, List.map_cons, List.map_nil,
        Report.result_all_singleton]
      rw [Walk.bind_apply, Walk.work_apply, Work.foldl_run]
      apply visit_target_apply (s := { s with work := s.work.meet (actions.map .act) })
        (hvisit (List.cons_ne_nil _ _)) hs
  | jump condition ifTrue ifFalse =>
      simp only [Content.observations, Content.kind, Kind.exits, List.map_cons, List.map_nil]
      rw [Walk.bind_apply, Walk.work_apply, Work.reportReads_eq]
      apply follow_both_apply (s := { s with work := s.work.meet [.test condition] })
        (hvisit (List.cons_ne_nil _ _)) hs

/-- Entering a node which is not on the path adds what the node reads and what is behind its exits,
and leaves the node again. -/
theorem node_inside_apply
    {s : State} (hs : s.trail.nodes = path) (hmem : n ∉ path)
    (hvisit : g.exits n ≠ [] → Explores g (n :: path) visit) :
  Walk.node n (pure ()) (inside g visit n) s
    = (Report.andThen ⟨unassignedAll s.work.scopes (g.content n).observations, none⟩
        (.all ((g.exits n).map (exploreExit g (n :: path)
          (afterAll s.work.scopes (g.content n).observations) n)))).result
        { s with work :=
          { s.work with scopes := afterAll s.work.scopes (g.content n).observations } }
  := by
  have htrail : Trail.enter? n s.trail = some ⟨n :: path⟩ := by
    rw [Path.enter?_eq, hs, if_neg hmem]
  have hleave : Trail.leave n (⟨n :: path⟩ : Path) = s.trail := Path.leave_of_enter? htrail
  have hinside := inside_apply n hvisit (s := { s with trail := ⟨n :: path⟩ }) rfl
  rw [Walk.node_of_entered htrail, hinside, Report.result_andThen]
  generalize Report.all _ = r
  obtain ⟨findings, failure⟩ := r
  cases failure <;> simp only [Report.result, add, hleave, Work.meet]

/-- A visit of the check adds to the findings what `explore` reports, provided that it may be nested
deeper than there are nodes off the path. -/
theorem explores_nest
    (g : FlowGraph) (path : List Node) (depth : Nat) (h : g.unvisited path < depth) :
  Explores g path (Walk.nest (step g) depth)
  := by
  induction depth generalizing path with
  | zero => contradiction
  | succ depth ih =>
      intro n s hs
      rw [Walk.nest_succ]
      change inScope (Walk.node n (pure ()) (inside g (Walk.nest (step g) depth) n)) s = _
      by_cases hmem : n ∈ path
      · rw [explore_of_mem hmem]
        apply inScope_apply (opened s.work.scopes)
        · apply Walk.node_of_refused
          rw [Path.enter?_eq, hs, if_pos hmem]
        · rfl
      · rw [explore_of_not_mem hmem]
        apply inScope_apply (afterAll (opened s.work.scopes) (g.content n).observations)
        · apply node_inside_apply (s := { s with work := s.work.open }) hs hmem
          intro hexits
          obtain ⟨p, hp⟩ := List.exists_mem_of_ne_nil _ hexits
          have hlt := FlowGraph.unvisited_cons_lt (FlowGraph.mem_nodes_of_mem_exits hp) hmem
          apply ih
          omega
        · simp [opened]

/-- What the check reports of a graph. -/
def report (g : FlowGraph) : Report :=
  explore g [] [Scope.ofParameters g.parameters] .start

end Assignment

/-- A visit is a bracket around the state of the check: it leaves the path and the scopes as they
were, also when it fails, and puts what it finds behind the findings before, on which this does not
depend. -/
theorem Assignment.visit_brackets
    (g : FlowGraph) (n : Node) (path : Path) (scopes : List Scope) :
  ∃ (found : List Finding) (failure : Option Failure), ∀ findings : Array Finding,
    (visit g n ⟨path, ⟨scopes, findings⟩⟩
      = match failure with
        | none => .ok () ⟨path, ⟨scopes, findings ++ found⟩⟩
        | some e => .error e ⟨path, ⟨scopes, findings ++ found⟩⟩)
    ∧ ∀ deeper, Walk.nest (step g) (g.nesting + deeper) n ⟨path, ⟨scopes, findings⟩⟩
      = visit g n ⟨path, ⟨scopes, findings⟩⟩
  := by
  have hnesting := g.unvisited_lt_nesting path.nodes
  use (explore g path.nodes scopes n).findings, (explore g path.nodes scopes n).failure
  intro findings
  have hvisit := explores_nest g path.nodes g.nesting hnesting n ⟨path, ⟨scopes, findings⟩⟩ rfl
  constructor
  · rw [visit, hvisit, Report.result]
    cases (explore g path.nodes scopes n).failure <;> rfl
  · intro deeper
    have hdeeper := explores_nest g path.nodes (g.nesting + deeper)
      (Nat.lt_add_right deeper hnesting) n ⟨path, ⟨scopes, findings⟩⟩ rfl
    rw [visit, hvisit, hdeeper]

/-- The check of a graph gives the findings of its report, unless the report is one of failure. -/
theorem FlowGraph.unassignedReads_eq
    (g : FlowGraph) :
  g.unassignedReads
    = match (Assignment.report g).failure with
      | some e => .error e
      | none => .ok (Assignment.report g).findings
  := by
  have hvisit := Assignment.explores_nest g [] g.nesting (g.unvisited_lt_nesting []) .start
    (Assignment.initial g) rfl
  change Assignment.visit g .start (Assignment.initial g)
    = (Assignment.report g).result (Assignment.initial g) at hvisit
  unfold unassignedReads
  rw [hvisit]
  generalize Assignment.report g = r
  obtain ⟨findings, failure⟩ := r
  cases failure <;> simp [Assignment.Report.result, Assignment.add, Assignment.initial]

end MethodFlow
