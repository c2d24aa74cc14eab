import MethodFlow.Walk.Basic

/-!
# Bypassing empty blocks

The walk follows every path of a flow graph from the start, each node at most once on a path, and
remembers the slot through which it reached each node.  At an empty block it leads that slot on to
the block's own target and goes on there through the same slot.  `FlowGraph.bypass` is the outcome:
the graph as far as it was changed, and the blocks bypassed.
-/

namespace MethodFlow

namespace Bypass

/-- The work of the walk: the graph as changed so far, and the blocks bypassed so far, each one
once. -/
structure Work where
  graph : FlowGraph
  blocks : List Node
deriving Inhabited

/-- A computation of the walk. -/
abbrev Run (α : Type) : Type :=
  Walk Path Work α

/-- The graph as changed so far. -/
def current : Run FlowGraph :=
  return (← get).work.graph

/-- Where a slot of the graph leads now. -/
def target (s : Slot) : Run Node := do
  Walk.target (← current) s

/-- Leads a slot to a node. -/
def redirect (s : Slot) (m : Node) : Run Unit := do
  let changed ← MonadExcept.ofExcept ((← current).setTarget s m)
  Walk.work ({ · with graph := changed })

/-- Counts a block as bypassed. -/
def count (n : Node) : Run Unit :=
  Walk.work fun w => { w with blocks := w.blocks.insert n }

/-- Visits what each exit of a node leads to, in the order of the exits, reading each slot right
before it is followed. -/
def followAll (visit : Slot × Node → Run Unit) (n : Node) : Run Unit := do
  ((← current).exits n).forM fun p => do
    let m ← target ⟨n, p⟩
    visit (⟨n, p⟩, m)

/-- Visits the node to which a slot leads.  An empty block is bypassed, behind any other node all
slots are followed. -/
def step (visit : Slot × Node → Run Unit) : Slot × Node → Run Unit
  | (reached, n) => Walk.node n (pure ()) do
    if ((← current).content n).isEmptyBlock then
      let m ← target ⟨n, .next⟩
      redirect reached m
      count n
      visit (reached, m)
    else
      followAll visit n

/-- The walk from the start of a graph. -/
def walk (g : FlowGraph) : Run Unit :=
  Walk.node .start (pure ()) (followAll (Walk.nest step g.nesting) .start)

/-- What came of bypassing the empty blocks of a graph. -/
structure Outcome where
  /-- The graph, changed up to the end of the walk or up to its failure. -/
  graph : FlowGraph
  /-- The blocks bypassed, each one once, or why the walk failed. -/
  blocks : Except Failure (List Node)

/-- Whether any block was bypassed, if the walk came to its end. -/
def Outcome.changed (o : Outcome) : Except Failure Bool :=
  o.blocks.map (!·.isEmpty)

theorem Outcome.changed_of_ok
    {o : Outcome} {blocks : List Node} (h : o.blocks = .ok blocks) :
  o.changed = .ok (!blocks.isEmpty)
  := by
  rw [changed, h]
  rfl

end Bypass

/-- Leads every slot around the empty blocks which a walk from the start reaches.  The walk fails at
the first slot which is not set; what was changed before stays changed. -/
def FlowGraph.bypass (g : FlowGraph) : Bypass.Outcome :=
  match Bypass.walk g ⟨Trail.empty, ⟨g, []⟩⟩ with
  | .ok _ s => ⟨s.work.graph, .ok s.work.blocks⟩
  | .error e s => ⟨s.work.graph, .error e⟩

end MethodFlow
