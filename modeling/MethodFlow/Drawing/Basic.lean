import MethodFlow.Walk.Basic

/-!
# Drawings

A `Drawing` is the list of the lines which draw what is reachable from the start of a flow graph.
The nodes are numbered from `0` in the order in which a walk enters them, each node once.  A node is
drawn when it is entered, an arrow once everything behind its target is drawn.
`FlowGraph.arrowSet` lists the arrows as pairs of numbers.
-/

namespace MethodFlow

/-- What is drawn for a node. -/
inductive Figure where
  | start
  | stop
  /-- A block is drawn with the texts of its actions. -/
  | block (actions : List String)
  /-- A jump is drawn with the text of its condition. -/
  | jump (condition : String)
deriving DecidableEq, Inhabited

/-- What is drawn for a node with a content. -/
def Content.figure : Content → Figure
  | .start _ => .start
  | .stop => .stop
  | .block actions _ => .block (actions.map Action.render)
  | .jump condition _ _ => .jump condition.render

namespace Drawing

/-- A line of a drawing. -/
inductive Line where
  /-- A numbered node. -/
  | node (number : Nat) (figure : Figure)
  /-- An arrow from a node through one of its exits to another node. -/
  | arrow (source : Nat) (exit : Exit) (target : Nat)
deriving DecidableEq, Inhabited

/-- The numbers which an arrow joins. -/
def Line.ends? : Line → Option (Nat × Nat)
  | .node _ _ => none
  | .arrow source _ target => some (source, target)

/-- A computation which draws. -/
abbrev Draw (α : Type) : Type :=
  Walk Visited (Array Line) α

/-- Draws a line. -/
def draw (l : Line) : Draw Unit :=
  Walk.work (·.push l)

/-- The number of a node which was entered. -/
def numberOf (n : Node) : Draw Nat :=
  return (← get).trail.number n

/-- Visits what a slot leads to, then draws the arrow from the node of the slot. -/
def follow (g : FlowGraph) (visit : Node → Draw Nat) (source : Nat) (s : Slot) : Draw Unit := do
  let target ← visit (← Walk.target g s)
  draw (.arrow source s.exit target)

/-- Visits a node and returns its number.  A node entered for the first time is drawn and its slots
are followed. -/
def step (g : FlowGraph) (visit : Node → Draw Nat) (n : Node) : Draw Nat :=
  Walk.node n (numberOf n) do
    let source ← numberOf n
    draw (.node source (g.content n).figure)
    (g.exits n).forM fun p => follow g visit source ⟨n, p⟩
    return source

/-- Whether a pair of numbers comes before another one, or is the same. -/
def pairLE (a b : Nat × Nat) : Bool :=
  a.1 < b.1 || (a.1 == b.1 && a.2 ≤ b.2)

end Drawing

/-- The lines which draw what is reachable from the start.  It fails at the first slot met which is
not set. -/
def FlowGraph.drawing (g : FlowGraph) : Except Failure (List Drawing.Line) :=
  match Walk.nest (Drawing.step g) g.nesting .start ⟨Trail.empty, #[]⟩ with
  | .ok _ s => .ok s.work.toList
  | .error e _ => .error e

/-- The pairs of numbers which arrows join, in ascending order and each one once. -/
def FlowGraph.arrowSet (g : FlowGraph) : Except Failure (List (Nat × Nat)) :=
  g.drawing.map fun lines =>
    (lines.filterMap Drawing.Line.ends?).eraseDups.mergeSort Drawing.pairLE

end MethodFlow
