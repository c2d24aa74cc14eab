import Mathlib.Data.List.Count
import MethodFlow.Proofs.Assignment.Comparison
import MethodFlow.Proofs.Assignment.Tracking

/-!
# Variables do not influence one another

`Observation.uses` is what happens to a single variable when something happens, whatever happens to
others.  How often the check of definite assignment finds that a variable is read without a value is
determined by the shape of the graph and by the uses of the variable at each node: the scopes come
to a list of statuses of the variable (`Assignment.layers`), which changes by its uses alone, and
`Assignment.missed` counts the reads.  `FlowGraph.count_unassignedReads_eq` compares two variables
of two graphs.
-/

namespace MethodFlow

/-- Something which happens to a variable. -/
inductive Use where
  /-- It is read. -/
  | read
  /-- It is declared without a value. -/
  | declare
  /-- It is declared with an initial value. -/
  | define
  /-- It is assigned a value. -/
  | assign
deriving DecidableEq

/-- The status of a variable after it was used. -/
def Use.after (u : Use) (st : Status) : Status :=
  match u with
  | .read => st
  | .declare => .unassigned
  | .define => .assigned
  | .assign => if st = .undeclared then .undeclared else .assigned

/-- What an action does to a variable, apart from reading it. -/
def Action.writes (v : Variable) : Action → List Use
  | .declare _ w => if w == v then [.declare] else []
  | .define _ w _ => if w == v then [.define] else []
  | .assign w _ => if w == v then [.assign] else []
  | .eval _ | .ret _ => []

/-- What happens to a variable, apart from reading it, when something happens. -/
def Observation.writes (v : Variable) : Observation → List Use
  | .act a => a.writes v
  | .test _ => []

/-- What happens to a variable when something happens: it is read, as often as it is, and then it is
written. -/
def Observation.uses (v : Variable) (o : Observation) : List Use :=
  (o.reads.filter (· == v)).map (fun _ => .read) ++ o.writes v

/-- What happens to a variable at a node, in order. -/
def Content.uses (v : Variable) (c : Content) : List Use :=
  c.observations.flatMap (Observation.uses v)

/-- Among the variables read in the graph, exactly those which are `v` have the name of `v`. -/
def FlowGraph.NamesAlone (g : FlowGraph) (v : Variable) : Prop :=
  ∀ n ∈ g.nodes, ∀ o ∈ (g.content n).observations, ∀ w ∈ o.reads, w.name = v.name ↔ w == v

theorem Observation.read_not_mem_writes
    (v : Variable) (o : Observation) :
  .read ∉ o.writes v
  := by
  cases o with
  | act a => fun_cases Action.writes v a <;> simp [writes, Action.writes, *]
  | test c => simp [writes]

namespace Assignment

variable {v w : Variable} {sts : List Status} {us us' : List Use} {o : Observation}
  {os : List Observation} {scopes : List Scope}

/-- The statuses of a variable in the scopes. -/
def layers (v : Variable) (scopes : List Scope) : List Status :=
  scopes.map (·.status v)

/-- The statuses of a variable after it was used, which changes the innermost one. -/
def afterUses (sts : List Status) (us : List Use) : List Status :=
  us.foldl (fun sts u => sts.modifyHead u.after) sts

/-- How often a variable is read when none of its statuses says that it has a value. -/
def missed (sts : List Status) : List Use → Nat
  | [] => 0
  | u :: us =>
    (if u = .read ∧ .assigned ∉ sts then 1 else 0) + missed (sts.modifyHead u.after) us

/-! ### Uses and statuses -/

@[simp]
theorem afterUses_nil
    (sts : List Status) :
  afterUses sts [] = sts
  := rfl

@[simp]
theorem afterUses_cons
    (sts : List Status) (u : Use) (us : List Use) :
  afterUses sts (u :: us) = afterUses (sts.modifyHead u.after) us
  := rfl

@[simp]
theorem afterUses_append
    (sts : List Status) (us us' : List Use) :
  afterUses sts (us ++ us') = afterUses (afterUses sts us) us'
  := by
  simp [afterUses]

theorem missed_append
    (sts : List Status) (us us' : List Use) :
  missed sts (us ++ us') = missed sts us + missed (afterUses sts us) us'
  := by
  induction us generalizing sts with
  | nil => simp [missed]
  | cons u us ih => rw [List.cons_append, missed, missed, ih, afterUses_cons, Nat.add_assoc]

@[simp]
theorem modifyHead_read
    (sts : List Status) :
  sts.modifyHead Use.read.after = sts
  := by
  cases sts <;> rfl

/-- Reads change no status, and each one is missed where there is no value. -/
theorem reads_apply
    {α : Type} (xs : List α) (sts : List Status) :
  afterUses sts (xs.map fun _ => .read) = sts
    ∧ missed sts (xs.map fun _ => .read) = if .assigned ∈ sts then 0 else xs.length
  := by
  induction xs with
  | nil => simp [missed]
  | cons x xs ih =>
      rw [List.map_cons, afterUses_cons, missed, modifyHead_read, ih.1, ih.2]
      constructor
      · rfl
      · by_cases h : Status.assigned ∈ sts
        · simp [h]
        · simp [h, Nat.add_comm]

theorem missed_of_not_mem
    (h : .read ∉ us) (sts : List Status) :
  missed sts us = 0
  := by
  induction us generalizing sts with
  | nil => rfl
  | cons u us ih =>
      rw [List.mem_cons, not_or] at h
      rw [missed, if_neg fun hu => h.1 hu.1.symm, ih h.2]

/-- Being written changes the innermost status as what happens changes it. -/
theorem afterUses_writes
    (v : Variable) (o : Observation) (st : Status) (sts : List Status) :
  afterUses (st :: sts) (o.writes v) = Status.after v st o :: sts
  := by
  cases o with
  | test c => rfl
  | act a =>
      cases a with
      | declare _ w =>
          by_cases h : w.id = v.id <;>
            simp [Observation.writes, Action.writes, Status.after, Variable.beq_iff, Use.after, h]
      | define _ w _ =>
          by_cases h : w.id = v.id <;>
            simp [Observation.writes, Action.writes, Status.after, Variable.beq_iff, Use.after, h]
      | assign w _ =>
          by_cases h : w.id = v.id <;> cases st <;>
            simp [Observation.writes, Action.writes, Status.after, Variable.beq_iff, Use.after, h]
      | _ => rfl

/-! ### Scopes and findings -/

theorem allows_iff_mem_layers :
  Scope.allows scopes v = true ↔ .assigned ∈ layers v scopes
  := by
  simp [Scope.allows, layers, Scope.hasValue_iff]

theorem allows_congr
    (h : w == v) :
  Scope.allows scopes w = Scope.allows scopes v
  := by
  have hid := Variable.beq_iff.mp h
  simp only [Scope.allows, Scope.hasValue, Scope.state?, hid]

theorem layers_opened
    (v : Variable) (scopes : List Scope) :
  layers v (opened scopes) = (layers v scopes).headD .undeclared :: layers v scopes
  := by
  cases scopes <;> rfl

/-- What happens changes the statuses of a variable as its uses do. -/
theorem layers_after
    (v : Variable) (o : Observation) (scopes : List Scope) :
  layers v (after scopes o) = afterUses (layers v scopes) (o.uses v)
  := by
  rw [Observation.uses, afterUses_append, (reads_apply _ _).1]
  cases scopes with
  | nil =>
      have hnil : ∀ us, afterUses [] us = [] := by
        intro us
        induction us with
        | nil => rfl
        | cons u us ih => apply ih
      have hafter : after [] o = [] := by cases o <;> rfl
      rw [hafter]
      apply (hnil _).symm
  | cons sc scopes =>
      change _ = afterUses (sc.status v :: layers v scopes) _
      rw [afterUses_writes]
      cases o with
      | act a =>
          rw [← sc.status_run]
          rfl
      | test c => rfl

theorem layers_afterAll
    (v : Variable) (os : List Observation) (scopes : List Scope) :
  layers v (afterAll scopes os) = afterUses (layers v scopes) (os.flatMap (Observation.uses v))
  := by
  induction os generalizing scopes with
  | nil => rfl
  | cons o os ih =>
      rw [List.flatMap_cons, afterUses_append, ← layers_after]
      apply ih

/-- What is found of a variable when something happens are its reads which are missed. -/
theorem count_unassigned
    (h : ∀ w ∈ o.reads, w.name = v.name ↔ w == v) (scopes : List Scope) :
  (unassigned scopes o).count (.unassigned v.name) = missed (layers v scopes) (o.uses v)
  := by
  have hnamed : (unassigned scopes o).count (.unassigned v.name)
      = (o.reads.filter (· == v)).countP (!Scope.allows scopes ·) := by
    rw [unassigned, List.count, List.countP_map, List.countP_filter, List.countP_filter]
    apply List.countP_congr
    intro w hw
    simp [h w hw, and_comm]
  have hallowed : ∀ w ∈ o.reads.filter (· == v),
      Scope.allows scopes w = Scope.allows scopes v := by
    intro w hw
    apply allows_congr (List.mem_filter.mp hw).2
  rw [hnamed, Observation.uses, missed_append, (reads_apply _ _).1, (reads_apply _ _).2,
    missed_of_not_mem (o.read_not_mem_writes v), Nat.add_zero]
  by_cases hv : .assigned ∈ layers v scopes
  · rw [if_pos hv, List.countP_eq_zero]
    intro w hw
    simp [hallowed w hw, allows_iff_mem_layers.mpr hv]
  · rw [if_neg hv, List.countP_eq_length]
    intro w hw
    simpa [hallowed w hw] using mt allows_iff_mem_layers.mp hv

/-- What is found of a variable while all of a list happens are its reads which are missed. -/
theorem count_unassignedAll
    (h : ∀ o ∈ os, ∀ w ∈ o.reads, w.name = v.name ↔ w == v) (scopes : List Scope) :
  (unassignedAll scopes os).count (.unassigned v.name)
    = missed (layers v scopes) (os.flatMap (Observation.uses v))
  := by
  induction os generalizing scopes with
  | nil => rfl
  | cons o os ih =>
      rw [unassignedAll, List.count_append, List.flatMap_cons, missed_append, ← layers_after,
        count_unassigned (h o List.mem_cons_self),
        ih fun o' ho' => h o' (List.mem_cons_of_mem o ho')]

end Assignment

namespace FlowGraph

variable {g g' : FlowGraph} {v w : Variable}

/-- In graphs of one shape, two variables which are used in the same way at each node are missed
equally often. -/
theorem compares_uses
    (hshape : g.SameShape g') (hv : g.NamesAlone v) (hw : g'.NamesAlone w)
    (huses : ∀ n ∈ g.nodes, (g.content n).uses v = (g'.content n).uses w) :
  Assignment.Compares g g'
    (fun scopes scopes' => Assignment.layers v scopes = Assignment.layers w scopes')
    (fun fs fs' => fs.count (.unassigned v.name) = fs'.count (.unassigned w.name))
  where
  shape := hshape
  nil := rfl
  append h h' := by rw [List.count_append, List.count_append, h, h']
  opened h := by rw [Assignment.layers_opened, Assignment.layers_opened, h]
  node n hn h := by
    have hn' : n ∈ g'.nodes := by rwa [hshape.nodes]
    have huses' := huses n hn
    unfold Content.uses at huses'
    constructor
    · rw [Assignment.layers_afterAll, Assignment.layers_afterAll, h, huses']
    · rw [Assignment.count_unassignedAll (hv n hn), Assignment.count_unassignedAll (hw n hn'), h,
        huses']

/-- In two graphs of the same shape, a variable of the one is found to be read without a value as
often as a variable of the other if both are parameters or neither is, and if the same happens to
both at each node, whatever happens to other variables: provided that no other variable which is
read has the name of either. -/
theorem count_unassignedReads_eq
    (hshape : g.SameShape g') (hv : g.NamesAlone v) (hw : g'.NamesAlone w)
    (hparameter : v.id ∈ g.parameters.map (·.var.id) ↔ w.id ∈ g'.parameters.map (·.var.id))
    (huses : ∀ n ∈ g.nodes, (g.content n).uses v = (g'.content n).uses w)
    {findings : List Finding} (hfindings : g.unassignedReads = .ok findings) :
  ∃ findings', g'.unassignedReads = .ok findings'
    ∧ findings.count (.unassigned v.name) = findings'.count (.unassigned w.name)
  := by
  apply (compares_uses hshape hv hw huses).unassignedReads _ hfindings
  simp only [Assignment.layers, List.map_cons, List.map_nil, Scope.status_ofParameters, hparameter]

/-- The graph of a method with a parameter `y` which declares `x` and then has a loop: the condition
reads `x` and `y`, and the body reads `x` and assigns to it. -/
def comparedInLoop : FlowGraph where
  parameters := [⟨⟨1, "y"⟩, .int⟩]
  entry := some (.inner 0)
  cells := #[
    .block [.declare .int ⟨0, "x"⟩] (some (.inner 1)),
    .jump (.binary .lt (.read ⟨0, "x"⟩) (.read ⟨1, "y"⟩)) (some (.inner 2)) (some .stop),
    .block [.assign ⟨0, "x"⟩ (.binary .add (.read ⟨0, "x"⟩) (.int 1))] (some (.inner 1))]

/-- A graph of the same shape which does to `b` what the other one does to `x`, and has a further
variable which is never assigned a value. -/
def negatedInLoop : FlowGraph where
  parameters := []
  entry := some (.inner 0)
  cells := #[
    .block [.declare .bool ⟨5, "b"⟩, .declare .int ⟨7, "z"⟩] (some (.inner 1)),
    .jump (.unary .not (.read ⟨5, "b"⟩)) (some (.inner 2)) (some .stop),
    .block [.eval (.read ⟨7, "z"⟩), .assign ⟨5, "b"⟩ (.unary .not (.read ⟨5, "b"⟩)),
      .eval (.read ⟨7, "z"⟩)] (some (.inner 1))]

/-- The variables `x` and `b` of these graphs are found equally often: twice. -/
theorem count_unassignedReads_eq_inLoop :
  comparedInLoop.SameShape negatedInLoop ∧ comparedInLoop.NamesAlone ⟨0, "x"⟩
    ∧ negatedInLoop.NamesAlone ⟨5, "b"⟩
    ∧ comparedInLoop.unassignedReads = .ok [.unassigned "x", .unassigned "x"]
    ∧ ∃ findings, negatedInLoop.unassignedReads = .ok findings
      ∧ findings.count (.unassigned "b") = 2
  := by
  have hshape : comparedInLoop.SameShape negatedInLoop := by constructor <;> decide
  have hx : comparedInLoop.NamesAlone ⟨0, "x"⟩ := by
    unfold NamesAlone
    decide
  have hb : negatedInLoop.NamesAlone ⟨5, "b"⟩ := by
    unfold NamesAlone
    decide
  have hfindings : comparedInLoop.unassignedReads = .ok [.unassigned "x", .unassigned "x"] := rfl
  obtain ⟨findings, hfindings', hcount⟩ :=
    count_unassignedReads_eq hshape hx hb (by decide) (by decide) hfindings
  exact ⟨hshape, hx, hb, hfindings, findings, hfindings', hcount.symm⟩

end FlowGraph

end MethodFlow
