import MethodFlow.Assignment.Scope
import MethodFlow.Finding
import MethodFlow.Walk.Basic

/-!
# Definite assignment

The check follows every path of a flow graph from the start, each node at most once on a path, and
reports each read of a variable which has no value on that path.  Every visit works on a copy of the
innermost scope, so what a path says of variables is forgotten where the path ends.
`FlowGraph.unassignedReads` is the list of findings in the order in which the walk makes them.
-/

namespace MethodFlow

namespace Assignment

/-- The work of the check: the scopes in force, the innermost first, and the findings so far. -/
structure Work where
  scopes : List Scope
  findings : Array Finding
deriving Inhabited

/-- The state of the check. -/
abbrev State : Type :=
  Progress Path Work

/-- A computation of the check. -/
abbrev Check (α : Type) : Type :=
  Walk Path Work α

variable {τ α : Type}

/-- Puts a copy of the innermost scope on the stack. -/
def Work.open (w : Work) : Work :=
  { w with scopes := w.scopes.headD [] :: w.scopes }

/-- Takes the innermost scope from the stack. -/
def Work.close (w : Work) : Work :=
  { w with scopes := w.scopes.tail }

/-- Changes the innermost scope, if there is one. -/
def Work.modifyTop (f : Scope → Scope) (w : Work) : Work :=
  { w with scopes := w.scopes.modifyHead f }

/-- Reports the variables which have no value where the scopes are in force. -/
def Work.reportReads (reads : List Variable) (w : Work) : Work :=
  let missing := reads.filter (!Scope.allows w.scopes ·)
  { w with findings := w.findings ++ missing.map fun v => Finding.unassigned v.name }

/-- Reports the reads of an action and changes the innermost scope by what the action does. -/
def Work.run (w : Work) (a : Action) : Work :=
  (w.reportReads a.reads).modifyTop (·.run a)

/-- A computation in a scope of its own, which is dropped even when the computation fails. -/
def inScope (act : Walk τ Work α) : Walk τ Work α :=
  Walk.within (fun s => { s with work := s.work.open })
    (fun s => { s with work := s.work.close }) act

/-- Visits, in a further scope, what a branch of a jump leads to. -/
def follow (g : FlowGraph) (visit : Node → Walk τ Work Unit) (branch : Slot) :
    Walk τ Work Unit := do
  let m ← Walk.target g branch
  inScope (visit m)

/-- Visits a node in a scope of its own: checks the actions of a block or the condition of a jump,
then visits what is behind the node. -/
def step [Trail τ] (g : FlowGraph) (visit : Node → Walk τ Work Unit) (n : Node) :
    Walk τ Work Unit :=
  inScope <| Walk.node n (pure ()) do
    match g.content n with
    | .start _ => visit (← Walk.target g ⟨n, .next⟩)
    | .stop => pure ()
    | .block actions _ =>
      Walk.work fun w => actions.foldl Work.run w
      visit (← Walk.target g ⟨n, .next⟩)
    | .jump condition _ _ =>
      Walk.work (·.reportReads condition.reads)
      follow g visit ⟨n, .ifTrue⟩
      follow g visit ⟨n, .ifFalse⟩

/-- Visits a node and what is behind it. -/
def visit (g : FlowGraph) (n : Node) : Check Unit :=
  Walk.nest (step g) g.nesting n

/-- The state of the check before the first node of a graph. -/
def initial (g : FlowGraph) : State :=
  ⟨Trail.empty, ⟨[Scope.ofParameters g.parameters], #[]⟩⟩

end Assignment

/-- The reads of variables which may have no value, in the order in which the paths from the start
are followed.  It fails at the first slot on a path which is not set. -/
def FlowGraph.unassignedReads (g : FlowGraph) : Except Failure (List Finding) :=
  match Assignment.visit g .start (Assignment.initial g) with
  | .ok _ s => .ok s.work.findings.toList
  | .error e _ => .error e

end MethodFlow
