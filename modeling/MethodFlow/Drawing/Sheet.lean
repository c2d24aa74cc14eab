import MethodFlow.Drawing.Basic

/-!
# Drawings with numbers and arrows kept

The same walk, which keeps the numbers it gives and the pairs of numbers which its arrows join.  A
node is given the next number when it is first asked for one.  The pairs are kept in ascending order
and each one once, and a pair is added to them right before its arrow is drawn.
-/

namespace MethodFlow

namespace Drawing

/-- Adds a pair to pairs in ascending order, unless it is among them. -/
def insertPair (p : Nat × Nat) : List (Nat × Nat) → List (Nat × Nat)
  | [] => [p]
  | q :: qs =>
    if p = q then
      q :: qs
    else if pairLE p q then
      p :: q :: qs
    else
      q :: insertPair p qs

/-- The lines drawn so far, the numbers given so far in the order of giving, and the pairs of
numbers joined so far. -/
structure Sheet where
  lines : Array Line
  numbers : List (Node × Nat)
  pairs : List (Nat × Nat)
deriving Inhabited

namespace Sheet

/-- A sheet without a line. -/
def blank : Sheet :=
  ⟨#[], [], []⟩

/-- Draws a line. -/
def draw (l : Line) (w : Sheet) : Sheet :=
  { w with lines := w.lines.push l }

/-- Gives the next number to a node. -/
def give (n : Node) (w : Sheet) : Sheet :=
  { w with numbers := w.numbers ++ [(n, w.numbers.length)] }

/-- Notes that an arrow joins two numbers. -/
def join (source target : Nat) (w : Sheet) : Sheet :=
  { w with pairs := insertPair (source, target) w.pairs }

/-- The number of a node, which is given to it now if it has none. -/
def number (n : Node) : Walk Visited Sheet Nat := do
  let w := (← get).work
  match w.numbers.lookup n with
  | some i => return i
  | none =>
    Walk.work (give n)
    return w.numbers.length

theorem number_apply
    (n : Node) (s : Progress Visited Sheet) :
  number n s
    = match s.work.numbers.lookup n with
      | some i => .ok i s
      | none => .ok s.work.numbers.length { s with work := s.work.give n }
  := by
  change (match s.work.numbers.lookup n with
    | some i => pure i
    | none => do
      Walk.work (give n)
      return s.work.numbers.length : Walk Visited Sheet Nat) s = _
  cases s.work.numbers.lookup n <;> rfl

/-- Visits what a slot leads to, then draws the arrow from the node of the slot. -/
def follow (g : FlowGraph) (visit : Node → Walk Visited Sheet Nat) (source : Nat) (s : Slot) :
    Walk Visited Sheet Unit := do
  let target ← visit (← Walk.target g s)
  Walk.work (join source target)
  Walk.work (draw (.arrow source s.exit target))

/-- Visits a node and returns its number.  A node entered for the first time is drawn and its slots
are followed. -/
def step (g : FlowGraph) (visit : Node → Walk Visited Sheet Nat) (n : Node) :
    Walk Visited Sheet Nat :=
  Walk.node n (number n) do
    let source ← number n
    Walk.work (draw (.node source (g.content n).figure))
    (g.exits n).forM fun p => follow g visit source ⟨n, p⟩
    return source

end Sheet

end Drawing

/-- The sheet on which what is reachable from the start is drawn.  It fails at the first slot met
which is not set. -/
def FlowGraph.sheet (g : FlowGraph) : Except Failure Drawing.Sheet :=
  match Walk.nest (Drawing.Sheet.step g) g.nesting .start ⟨Trail.empty, .blank⟩ with
  | .ok _ s => .ok s.work
  | .error e _ => .error e

end MethodFlow
