import MethodFlow.Graph.Basic
import MethodFlow.LinearCode.Lowering

/-!
# Assembling linear code into a flow graph

`Assembly` is a flow graph under construction.  `Assembly.emit` adds one instruction: nodes are made
in the order of the code and wired as they are made.  A place binds its label to the node made next.
A reference to a bound label is wired at once, a reference to any other label is deferred until the
label is bound.  `Assembly.complete` binds what is left to the stop and refuses code which jumps to
a label placed nowhere.  `Method.flowGraph` is the flow graph of a method.
-/

namespace MethodFlow

/-- Where the next instruction lands. -/
inductive Cursor where
  /-- In a block which takes further actions. -/
  | inside (block : Node)
  /-- At a new node, which is entered through the slot `fallsFrom`, if there is one, and to which
  the labels placed since the last node are bound. -/
  | between (fallsFrom : Option Slot) (placed : List Label)
deriving Inhabited

namespace Cursor

/-- Where nothing falls through to and no label was placed. -/
def nowhere : Cursor :=
  .between none []

/-- The slot through which the next node is entered. -/
def fallsFrom : Cursor → Option Slot
  | .inside block => some ⟨block, .next⟩
  | .between fallsFrom _ => fallsFrom

/-- The labels which the next node is to be bound to. -/
def placed : Cursor → List Label
  | .inside _ => []
  | .between _ placed => placed

/-- Whether the next instruction may be reached. -/
def isReachable (c : Cursor) : Bool :=
  c.fallsFrom.isSome || !c.placed.isEmpty

end Cursor

/-- A flow graph under construction. -/
structure Assembly where
  /-- The nodes made so far. -/
  graph : FlowGraph
  /-- Where the next instruction lands. -/
  cursor : Cursor
  /-- The labels bound so far and their nodes, the latest first. -/
  bindings : List (Label × Node)
  /-- The slots to be led to labels not bound yet, in the order of the references. -/
  deferred : List (Label × Slot)
deriving Inhabited

namespace Assembly

/-- The construction of a flow graph before its first instruction. -/
def initial (parameters : List Parameter) : Assembly where
  graph := .empty parameters
  cursor := .between (some ⟨.start, .next⟩) []
  bindings := []
  deferred := []

/-- The node a label is bound to. -/
def node? (a : Assembly) (l : Label) : Option Node :=
  a.bindings.lookup l

/-- Every binding made so far, the earliest first. -/
def bindingLog (a : Assembly) : List (Label × Node) :=
  a.bindings.reverse

/-- Leads a slot to a node. -/
def connect (a : Assembly) (s : Slot) (n : Node) : Except Failure Assembly := do
  return { a with graph := ← a.graph.setTarget s n }

/-- Binds a label to a node, and leads the slots which wait for the label to the node. -/
def bindLabel (a : Assembly) (n : Node) (l : Label) : Except Failure Assembly :=
  let waiting := a.deferred.filter (·.1 = l)
  let bound := { a with
    bindings := (l, n) :: a.bindings
    deferred := a.deferred.filter (·.1 ≠ l) }
  waiting.foldlM (fun a (_, s) => a.connect s n) bound

/-- Leads a slot to the node of a label, now or once the label is bound. -/
def refer (a : Assembly) (l : Label) (s : Slot) : Except Failure Assembly :=
  match a.node? l with
  | some n => a.connect s n
  | none => .ok { a with deferred := a.deferred ++ [(l, s)] }

/-- Enters a node where the cursor stands. -/
def land (a : Assembly) (n : Node) : Except Failure Assembly := do
  let entered ← a.cursor.fallsFrom.elim (.ok a) (a.connect · n)
  a.cursor.placed.foldlM (·.bindLabel n) entered

/-- Moves the cursor. -/
def moveTo (a : Assembly) (c : Cursor) : Assembly :=
  { a with cursor := c }

/-- The block which the next action goes to, made if there is none. -/
def openBlock (a : Assembly) : Except Failure (Node × Assembly) :=
  match a.cursor with
  | .inside block => .ok (block, a)
  | .between _ _ => do
    let (block, graph) := a.graph.addBlock
    return (block, ← land { a with graph } block)

/-- Adds an instruction at the cursor.  Nothing falls through a return, a branch or a jump, and a
jump which nothing reaches is dropped. -/
def emit (a : Assembly) : Instruction → Except Failure Assembly
  | .place l => .ok (a.moveTo (.between a.cursor.fallsFrom (a.cursor.placed ++ [l])))
  | .act action => do
    let (block, a) ← a.openBlock
    let a := { a with graph := ← a.graph.append block action }
    if action.endsMethod then
      return (← a.connect ⟨block, .next⟩ .stop).moveTo .nowhere
    else
      return a.moveTo (.inside block)
  | .branch condition ifTrue ifFalse => do
    let (node, graph) := a.graph.addJump condition
    let a ← land { a with graph } node
    let a ← a.refer ifTrue ⟨node, .ifTrue⟩
    let a ← a.refer ifFalse ⟨node, .ifFalse⟩
    return a.moveTo .nowhere
  | .jump l => do
    if a.cursor.isReachable then
      let (block, a) ← a.openBlock
      let a ← a.refer l ⟨block, .next⟩
      return a.moveTo .nowhere
    else
      return a.moveTo .nowhere

/-- Adds the instructions of linear code from front to back. -/
def emitAll (a : Assembly) (code : List Instruction) : Except Failure Assembly :=
  code.foldlM emit a

/-- Enters the stop where the cursor stands, if anything reaches the cursor. -/
def close (a : Assembly) : Except Failure Assembly :=
  if a.cursor.isReachable then
    return (← a.land .stop).moveTo .nowhere
  else
    return a.moveTo .nowhere

/-- The least number of a label which slots wait for. -/
def unplaced? (a : Assembly) : Option Nat :=
  (a.deferred.map (·.1.number)).min?

/-- The flow graph of a construction which has been closed.  It fails when a slot waits for a label
still, naming the least of these labels. -/
def result (a : Assembly) : Except Failure FlowGraph :=
  match a.unplaced? with
  | some number => .error (.unplacedLabel number)
  | none => .ok a.graph

/-- Ends a construction. -/
def complete (a : Assembly) : Except Failure FlowGraph := do
  (← a.close).result

end Assembly

/-- The construction of the flow graph of a method. -/
def Method.assembly (m : Method) : Except Failure Assembly :=
  (Assembly.initial m.parameters).emitAll m.code

/-- The flow graph of a method. -/
def Method.flowGraph (m : Method) : Except Failure FlowGraph := do
  (← m.assembly).complete

end MethodFlow
