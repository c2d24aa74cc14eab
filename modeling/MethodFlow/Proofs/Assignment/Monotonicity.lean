import Mathlib.Data.List.Forall2
import MethodFlow.Proofs.Assignment.Comparison
import MethodFlow.Proofs.Assignment.Tracking

/-!
# Further values leave findings out

If a variable is given a value at some further place, the check of definite assignment finds what it
found before, except that findings about the variable may be left out:
`FlowGraph.omits_unassignedReads`.  The place may be in any block, or the variable may become a
parameter.  Along every path the further value only raises the status of the variable in the scopes,
`Scope.Below`, and what happens later keeps the order of statuses.
-/

namespace MethodFlow

/-- The second list is the first one with some elements left out, of each of which `P` holds. -/
inductive Omits {α : Type} (P : α → Prop) : List α → List α → Prop where
  | nil : Omits P [] []
  | keep {xs ys : List α} (x : α) (h : Omits P xs ys) : Omits P (x :: xs) (x :: ys)
  | leave {xs ys : List α} {x : α} (hx : P x) (h : Omits P xs ys) : Omits P (x :: xs) ys

namespace Omits

variable {α β : Type} {P : α → Prop} {xs xs' ys ys' : List α}

theorem append
    (h : Omits P xs ys) (h' : Omits P xs' ys') :
  Omits P (xs ++ xs') (ys ++ ys')
  := by
  induction h with
  | nil => apply h'
  | keep x _ ih => apply ih.keep x
  | leave hx _ ih => apply ih.leave hx

/-- A stronger filter leaves out what only the weaker one lets pass. -/
theorem map_filter
    {p q : β → Bool} {f : β → α} {bs : List β} (hpq : ∀ b ∈ bs, q b = true → p b = true)
    (hP : ∀ b ∈ bs, p b = true → q b = false → P (f b)) :
  Omits P ((bs.filter p).map f) ((bs.filter q).map f)
  := by
  induction bs with
  | nil => apply Omits.nil
  | cons b bs ih =>
      have hrest := ih (fun c hc => hpq c (List.mem_cons_of_mem b hc))
        (fun c hc => hP c (List.mem_cons_of_mem b hc))
      cases hq : q b with
      | true =>
          have hp := hpq b List.mem_cons_self hq
          rw [List.filter_cons_of_pos hp, List.filter_cons_of_pos hq]
          apply hrest.keep
      | false =>
          have hq' : ¬ q b = true := by simp [hq]
          rw [List.filter_cons_of_neg hq']
          cases hp : p b with
          | true =>
              rw [List.filter_cons_of_pos hp]
              apply hrest.leave (hP b List.mem_cons_self hp hq)
          | false =>
              have hp' : ¬ p b = true := by simp [hp]
              rw [List.filter_cons_of_neg hp']
              apply hrest

end Omits

/-- How much a status says in favour of a variable. -/
def Status.rank : Status → Nat
  | .undeclared => 0
  | .unassigned => 1
  | .assigned => 2

theorem Status.rank_after_le
    {st st' : Status} (h : st.rank ≤ st'.rank) (v : Variable) (o : Observation) :
  (after v st o).rank ≤ (after v st' o).rank
  := by
  fun_cases after v st o <;> cases st <;> cases st' <;> simp_all [after, rank]

theorem Status.rank_le_after_assign
    (v : Variable) (st : Status) (value : Expr) :
  st.rank ≤ (after v st (.act (.assign v value))).rank
  := by
  cases st <;> simp [after, rank]

/-- The second scope says the same of all variables but `v`, and nothing less of `v`. -/
structure Scope.Below (v : Variable) (sc sc' : Scope) : Prop where
  others : ∀ w : Variable, w.id ≠ v.id → sc'.status w = sc.status w
  own : (sc.status v).rank ≤ (sc'.status v).rank

namespace Scope.Below

variable {v : Variable} {sc sc' : Scope}

theorem refl
    (v : Variable) (sc : Scope) :
  Below v sc sc
  where
  others _ _ := rfl
  own := Nat.le_refl _

theorem run
    (h : Below v sc sc') (a : Action) :
  Below v (sc.run a) (sc'.run a)
  where
  others w hw := by rw [status_run, status_run, h.others w hw]
  own := by
    rw [status_run, status_run]
    apply Status.rank_after_le h.own

/-- A scope stays below another one in which the variable is assigned a value. -/
theorem run_assign
    (h : Below v sc sc') (value : Expr) :
  Below v sc (sc'.run (.assign v value))
  where
  others w hw := by
    rw [status_run, ← h.others w hw]
    apply if_neg
    rintro ⟨hid, -⟩
    apply hw hid.symm
  own := by
    rw [status_run]
    apply Nat.le_trans h.own (Status.rank_le_after_assign v _ value)

/-- What has a value in a scope has one in a scope above it. -/
theorem hasValue
    (h : Below v sc sc') {w : Variable} (hw : sc.hasValue w = true) :
  sc'.hasValue w = true
  := by
  rw [hasValue_iff] at hw ⊢
  by_cases hid : w.id = v.id
  · have hstatus : ∀ sc : Scope, sc.status w = sc.status v := by
      intro sc
      rw [status, status, state?, state?, hid]
    have hown := h.own
    rw [hstatus] at hw ⊢
    rw [hw] at hown
    revert hown
    cases sc'.status v <;> decide
  · rw [h.others w hid, hw]

theorem hasValue_eq
    (h : Below v sc sc') {w : Variable} (hw : w.id ≠ v.id) :
  sc'.hasValue w = sc.hasValue w
  := by
  rw [Bool.eq_iff_iff, hasValue_iff, hasValue_iff, h.others w hw]

end Scope.Below

/-- The second list is the first one with further assignments to `v`, of values which read
nothing. -/
inductive Enriched (v : Variable) : List Observation → List Observation → Prop where
  | nil : Enriched v [] []
  | cons {os os' : List Observation} (o : Observation) (h : Enriched v os os') :
      Enriched v (o :: os) (o :: os')
  | assign {os os' : List Observation} {value : Expr} (hvalue : value.reads = [])
      (h : Enriched v os os') : Enriched v os (.act (.assign v value) :: os')

theorem Enriched.refl
    (v : Variable) (os : List Observation) :
  Enriched v os os
  := by
  induction os with
  | nil => apply Enriched.nil
  | cons o os ih => apply ih.cons o

namespace Assignment

variable {v w : Variable} {o : Observation} {os os' : List Observation}
  {scopes scopes' : List Scope} {P : Finding → Prop}

/-- Scope by scope, the second scopes are above the first. -/
def Raised (v : Variable) (scopes scopes' : List Scope) : Prop :=
  List.Forall₂ (Scope.Below v) scopes scopes'

theorem Raised.opened
    (h : Raised v scopes scopes') :
  Raised v (opened scopes) (opened scopes')
  := by
  cases h with
  | nil => apply List.Forall₂.cons (Scope.Below.refl v []) List.Forall₂.nil
  | cons hinner houter => apply List.Forall₂.cons hinner (List.Forall₂.cons hinner houter)

theorem Raised.after
    (h : Raised v scopes scopes') (o : Observation) :
  Raised v (after scopes o) (after scopes' o)
  := by
  cases o with
  | test c => apply h
  | act a =>
      cases h with
      | nil => apply List.Forall₂.nil
      | cons hinner houter => apply List.Forall₂.cons (hinner.run a) houter

theorem Raised.after_assign
    (h : Raised v scopes scopes') (value : Expr) :
  Raised v scopes (Assignment.after scopes' (.act (.assign v value)))
  := by
  cases h with
  | nil => apply List.Forall₂.nil
  | cons hinner houter => apply List.Forall₂.cons (hinner.run_assign value) houter

theorem Raised.allows
    (h : Raised v scopes scopes') (hw : Scope.allows scopes w = true) :
  Scope.allows scopes' w = true
  := by
  induction h with
  | nil => exact hw
  | cons hinner _ ih =>
      rw [Scope.allows, List.any_cons, Bool.or_eq_true] at hw ⊢
      apply hw.imp hinner.hasValue ih

theorem Raised.allows_eq
    (h : Raised v scopes scopes') (hw : w.id ≠ v.id) :
  Scope.allows scopes' w = Scope.allows scopes w
  := by
  induction h with
  | nil => rfl
  | cons hinner _ ih =>
      unfold Scope.allows at ih ⊢
      rw [List.any_cons, List.any_cons, hinner.hasValue_eq hw, ih]

/-- In raised scopes, only findings about the variable are left out when something happens. -/
theorem Raised.omits_unassigned
    (h : Raised v scopes scopes')
    (hP : ∀ w ∈ o.reads, w.id = v.id → P (.unassigned w.name)) :
  Omits P (unassigned scopes o) (unassigned scopes' o)
  := by
  apply Omits.map_filter
  · intro w _ hw
    rw [Bool.not_eq_true', Bool.eq_false_iff] at hw ⊢
    apply mt h.allows hw
  · intro w hmem hw hw'
    apply hP w hmem
    by_contra hid
    rw [h.allows_eq hid, hw] at hw'
    contradiction

/-- Further assignments keep scopes raised, and leave out only findings about the variable. -/
theorem Raised.enriched
    (h : Raised v scopes scopes') (hos : Enriched v os os')
    (hP : ∀ o ∈ os, ∀ w ∈ o.reads, w.id = v.id → P (.unassigned w.name)) :
  Raised v (afterAll scopes os) (afterAll scopes' os')
    ∧ Omits P (unassignedAll scopes os) (unassignedAll scopes' os')
  := by
  induction hos generalizing scopes scopes' with
  | nil => exact ⟨h, Omits.nil⟩
  | @cons os os' o _ ih =>
      obtain ⟨hlater, homits⟩ := ih (h.after o) fun o' ho' => hP o' (List.mem_cons_of_mem o ho')
      use hlater
      apply (h.omits_unassigned (hP o List.mem_cons_self)).append homits
  | @assign os os' value hvalue _ ih =>
      obtain ⟨hlater, homits⟩ := ih (h.after_assign value) hP
      use hlater
      have hnothing : unassigned scopes' (.act (.assign v value)) = [] := by
        simp [unassigned, Observation.reads, Action.reads, hvalue]
      rw [unassignedAll, hnothing]
      apply homits

end Assignment

/-- A block with one more action, in front of the action at `position`. -/
def Cell.insertAction (position : Nat) (a : Action) : Cell → Cell
  | .block actions next => .block (actions.insertIdx position a) next
  | c => c

/-- Further actions change neither what an inner node is nor where it leads. -/
theorem Cell.insertAction_shape
    (position : Nat) (a : Action) (c : Cell) :
  (c.insertAction position a).content.kind = c.content.kind
    ∧ ∀ p, (c.insertAction position a).content.target? p = c.content.target? p
  := by
  cases c with
  | block actions next =>
      use rfl
      intro p
      cases p <;> rfl
  | jump c ifTrue ifFalse => exact ⟨rfl, fun _ => rfl⟩

/-- An assignment put into a block enriches what happens there. -/
theorem Cell.enriched_insertAction
    (c : Cell) (position : Nat) (v : Variable) {value : Expr} (hvalue : value.reads = []) :
  Enriched v c.content.observations
    (c.insertAction position (.assign v value)).content.observations
  := by
  cases c with
  | jump c ifTrue ifFalse => apply Enriched.refl
  | block actions next =>
      simp only [insertAction, content, Content.observations]
      induction actions generalizing position with
      | nil =>
          cases position with
          | zero => apply Enriched.nil.assign hvalue
          | succ position => apply Enriched.nil
      | cons a actions ih =>
          cases position with
          | zero => apply (Enriched.refl v _).assign hvalue
          | succ position => apply (ih position).cons

namespace FlowGraph

variable {g : FlowGraph} {v : Variable}

/-- The graph with one more action in a block, in front of the action at `position`.  A graph
without the block is left as it is. -/
def insertAction (g : FlowGraph) (n : Node) (position : Nat) (a : Action) : FlowGraph :=
  match n with
  | .inner i => { g with cells := g.cells.modify i (·.insertAction position a) }
  | _ => g

/-- The graph with one more parameter, in front of the one at `position`. -/
def insertParameter (g : FlowGraph) (position : Nat) (p : Parameter) : FlowGraph :=
  { g with parameters := g.parameters.insertIdx position p }

/-- The variable is read somewhere in the graph. -/
def Reads (g : FlowGraph) (v : Variable) : Prop :=
  ∃ n ∈ g.nodes, ∃ o ∈ (g.content n).observations, v ∈ o.reads

/-- The finding names the variable, as it is called where it is read. -/
def Concerns (g : FlowGraph) (v : Variable) (f : Finding) : Prop :=
  ∃ w, g.Reads w ∧ w == v ∧ f = .unassigned w.name

/-- The nodes which are inner nodes have the cells in which the action was inserted. -/
theorem content_insertAction
    (g : FlowGraph) (n : Node) (position : Nat) (a : Action) (m : Node) :
  (g.insertAction n position a).content m = g.content m
    ∨ ∃ c : Cell, g.content m = c.content
      ∧ (g.insertAction n position a).content m = (c.insertAction position a).content
  := by
  cases n with
  | inner i =>
      cases m with
      | inner j =>
          simp only [content, insertAction, Array.getElem?_modify]
          by_cases hij : i = j
          · cases hcell : g.cells[j]? with
            | none => simp [hij]
            | some c =>
                right
                use c
                simp [hij]
          · left
            rw [if_neg hij]
      | _ => exact Or.inl rfl
  | _ => exact Or.inl rfl

/-- A graph with one more action has the same shape. -/
theorem sameShape_insertAction
    (g : FlowGraph) (n : Node) (position : Nat) (a : Action) :
  g.SameShape (g.insertAction n position a)
  where
  nodes := by
    cases n with
    | inner i => simp [nodes, insertAction]
    | _ => rfl
  kind m _ := by
    unfold kind
    obtain h | ⟨c, h, h'⟩ := g.content_insertAction n position a m
    · rw [h]
    · rw [h, h', (c.insertAction_shape position a).1]
  target? m _ p _ := by
    obtain h | ⟨c, h, h'⟩ := g.content_insertAction n position a m
    · rw [h]
    · rw [h, h', (c.insertAction_shape position a).2]

/-- An assignment put into a block enriches what happens at each node. -/
theorem enriched_insertAction
    (g : FlowGraph) (n : Node) (position : Nat) (v : Variable) {value : Expr}
    (hvalue : value.reads = []) (m : Node) :
  Enriched v (g.content m).observations
    ((g.insertAction n position (.assign v value)).content m).observations
  := by
  obtain h | ⟨c, h, h'⟩ := g.content_insertAction n position (.assign v value) m
  · rw [h]
    apply Enriched.refl
  · rw [h, h']
    apply c.enriched_insertAction position v hvalue

/-- Where a graph of the same shape has further assignments to a variable, only findings about the
variable are left out. -/
theorem compares_enriched
    {g' : FlowGraph} (hshape : g.SameShape g')
    (h : ∀ n ∈ g.nodes, Enriched v (g.content n).observations (g'.content n).observations) :
  Assignment.Compares g g' (Assignment.Raised v) (Omits (g.Concerns v))
  where
  shape := hshape
  nil := Omits.nil
  append := Omits.append
  opened := Assignment.Raised.opened
  node n hn hscopes := by
    apply hscopes.enriched (h n hn)
    intro o ho w hw hid
    exact ⟨w, ⟨n, hn, o, ho, hw⟩, Variable.beq_iff.mpr hid, rfl⟩

/-- A further parameter raises the scope in which a method starts. -/
theorem below_insertParameter
    (parameters : List Parameter) (position : Nat) (p : Parameter) :
  Scope.Below p.var (Scope.ofParameters parameters)
    (Scope.ofParameters (parameters.insertIdx position p))
  := by
  by_cases hposition : position ≤ parameters.length
  · have hmem : ∀ i, i ∈ (parameters.insertIdx position p).map (·.var.id)
        ↔ i = p.var.id ∨ i ∈ parameters.map (·.var.id) := by
      intro i
      rw [((List.perm_insertIdx p parameters hposition).map (·.var.id)).mem_iff, List.map_cons,
        List.mem_cons]
    constructor
    · intro w hw
      simp only [Scope.status_ofParameters, hmem, hw, false_or]
    · rw [Scope.status_ofParameters _ p.var, Scope.status_ofParameters _ p.var,
        if_pos ((hmem _).mpr (Or.inl rfl))]
      split <;> decide
  · rw [List.insertIdx_of_length_lt (by omega)]
    apply Scope.Below.refl

theorem content_insertParameter
    (g : FlowGraph) (position : Nat) (p : Parameter) (n : Node) :
  (g.insertParameter position p).content n = g.content n
  := by
  cases n <;> rfl

theorem sameShape_insertParameter
    (g : FlowGraph) (position : Nat) (p : Parameter) :
  g.SameShape (g.insertParameter position p)
  where
  nodes := rfl
  kind n _ := by rw [kind, kind, content_insertParameter]
  target? n _ q _ := by rw [content_insertParameter]

/-- If the check of a graph comes to its end, it does so too with a further assignment to a variable
anywhere in the graph, of a value which reads nothing, and with the variable as a further parameter.
It finds the same then, in the same order, except that findings which name the variable may be left
out. -/
theorem omits_unassignedReads
    (v : Variable) {findings : List Finding} (h : g.unassignedReads = .ok findings) :
  (∀ (n : Node) (position : Nat) (value : Expr), value.reads = [] →
    ∃ findings', (g.insertAction n position (.assign v value)).unassignedReads = .ok findings'
      ∧ Omits (g.Concerns v) findings findings')
    ∧ ∀ (position : Nat) (type : Primitive),
      ∃ findings', (g.insertParameter position ⟨v, type⟩).unassignedReads = .ok findings'
        ∧ Omits (g.Concerns v) findings findings'
  := by
  constructor
  · intro n position value hvalue
    have hcompares := compares_enriched (g.sameShape_insertAction n position (.assign v value))
      fun m _ => g.enriched_insertAction n position v hvalue m
    apply hcompares.unassignedReads _ h
    have hparameters : (g.insertAction n position (.assign v value)).parameters = g.parameters := by
      cases n <;> rfl
    rw [hparameters]
    apply List.Forall₂.cons (Scope.Below.refl v _) List.Forall₂.nil
  · intro position type
    have hcompares := compares_enriched (v := v)
      (g.sameShape_insertParameter position ⟨v, type⟩) fun n _ => by
        rw [content_insertParameter]
        apply Enriched.refl
    apply hcompares.unassignedReads _ h
    apply List.Forall₂.cons _ List.Forall₂.nil
    apply below_insertParameter g.parameters position ⟨v, type⟩

/-- The graph of a method which declares `x` and `y`, comes to an empty block, and then reads both
variables. -/
def readBehindEmptyBlock : FlowGraph where
  parameters := []
  entry := some (.inner 0)
  cells := #[
    .block [.declare .int ⟨0, "x"⟩, .declare .int ⟨1, "y"⟩] (some (.inner 1)),
    .block [] (some (.inner 2)),
    .block [.eval (.binary .add (.read ⟨0, "x"⟩) (.read ⟨1, "y"⟩))] (some .stop)]

/-- With an assignment to `x` in the empty block, or with `x` as a parameter, only `y` is found
where both variables were found before. -/
theorem omits_unassignedReads_readBehindEmptyBlock :
  readBehindEmptyBlock.unassignedReads = .ok [.unassigned "x", .unassigned "y"]
    ∧ (readBehindEmptyBlock.insertAction (.inner 1) 0
        (.assign ⟨0, "x"⟩ (.int 1))).unassignedReads = .ok [.unassigned "y"]
    ∧ (readBehindEmptyBlock.insertParameter 0 ⟨⟨0, "x"⟩, .int⟩).unassignedReads
      = .ok [.unassigned "y"]
    ∧ Omits (readBehindEmptyBlock.Concerns ⟨0, "x"⟩) [.unassigned "x", .unassigned "y"]
      [.unassigned "y"]
  := by
  have hbefore : readBehindEmptyBlock.unassignedReads
      = .ok [.unassigned "x", .unassigned "y"] := rfl
  have hassigned : (readBehindEmptyBlock.insertAction (.inner 1) 0
      (.assign ⟨0, "x"⟩ (.int 1))).unassignedReads = .ok [.unassigned "y"] := rfl
  obtain ⟨findings, hfindings, homits⟩ :=
    (omits_unassignedReads ⟨0, "x"⟩ hbefore).1 (.inner 1) 0 (.int 1) rfl
  obtain rfl := Except.ok.inj (hassigned.symm.trans hfindings)
  exact ⟨hbefore, hassigned, rfl, homits⟩

end FlowGraph

end MethodFlow
