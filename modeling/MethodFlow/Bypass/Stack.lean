import MethodFlow.Bypass

/-!
# Bypassing empty blocks with a stack of slots

The same walk, which keeps the slots it follows on a stack.  A slot is put on the stack before the
node to which it leads is visited, and taken from it after a visit which succeeds.  At an empty
block the slot on top is led past the block; without a slot on the stack the walk fails.
-/

namespace MethodFlow

namespace Bypass

/-- The work of the walk: the graph as changed so far, the blocks bypassed so far, and the slots
followed, the last one first. -/
structure Stacked extends Work where
  incoming : List Slot
deriving Inhabited

namespace Stacked

variable {τ : Type}

/-- The work before the first node, without a slot on the stack. -/
def initial (g : FlowGraph) : Stacked :=
  ⟨⟨g, []⟩, []⟩

/-- Puts a slot on the stack. -/
def push (s : Slot) (w : Stacked) : Stacked :=
  { w with incoming := s :: w.incoming }

/-- Takes a slot from the stack. -/
def pop (w : Stacked) : Stacked :=
  { w with incoming := w.incoming.tail }

/-- The graph as changed so far. -/
def current : Walk τ Stacked FlowGraph :=
  return (← get).work.graph

/-- Where a slot of the graph leads now. -/
def target (s : Slot) : Walk τ Stacked Node := do
  Walk.target (← current) s

/-- Leads a slot to a node. -/
def redirect (s : Slot) (m : Node) : Walk τ Stacked Unit := do
  let changed ← MonadExcept.ofExcept ((← current).setTarget s m)
  Walk.work ({ · with graph := changed })

/-- Counts a block as bypassed. -/
def count (n : Node) : Walk τ Stacked Unit :=
  Walk.work fun w => { w with blocks := w.blocks.insert n }

/-- The slot followed last.  It fails when no slot is on the stack. -/
def reached : Walk τ Stacked Slot := do
  match (← get).work.incoming with
  | [] => throw .noIncomingSlot
  | s :: _ => return s

theorem reached_apply
    (t : Progress τ Stacked) :
  reached t
    = match t.work.incoming with
      | [] => .error .noIncomingSlot t
      | s :: _ => .ok s t
  := by
  change (match t.work.incoming with
    | [] => throw .noIncomingSlot
    | s :: _ => pure s : Walk τ Stacked Slot) t = _
  cases t.work.incoming <;> rfl

/-- Visits what a slot leads to, with the slot on the stack.  It stays there if the visit fails. -/
def follow (visit : Node → Walk τ Stacked Unit) (s : Slot) : Walk τ Stacked Unit := do
  let m ← target s
  Walk.work (push s)
  visit m
  Walk.work pop

/-- Follows each exit of a node. -/
def followAll (visit : Node → Walk τ Stacked Unit) (n : Node) : Walk τ Stacked Unit := do
  ((← current).exits n).forM fun p => follow visit ⟨n, p⟩

/-- Visits a node.  An empty block is bypassed, behind any other node all slots are followed. -/
def step [Trail τ] (visit : Node → Walk τ Stacked Unit) (n : Node) : Walk τ Stacked Unit :=
  Walk.node n (pure ()) do
    if ((← current).content n).isEmptyBlock then
      let s ← reached
      let m ← target ⟨n, .next⟩
      redirect s m
      count n
      visit m
    else
      followAll visit n

end Stacked

end Bypass

/-- Leads every slot around the empty blocks which a walk from the start reaches, where the walk
keeps a trail of its own kind and the slots on a stack. -/
def FlowGraph.bypassOn (τ : Type) [Trail τ] (g : FlowGraph) : Bypass.Outcome :=
  match Walk.nest Bypass.Stacked.step g.nesting .start
      (⟨Trail.empty, .initial g⟩ : Progress τ Bypass.Stacked) with
  | .ok _ s => ⟨s.work.graph, .ok s.work.blocks⟩
  | .error e s => ⟨s.work.graph, .error e⟩

end MethodFlow
