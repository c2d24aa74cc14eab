import MethodFlow.Graph.Node

/-!
# Trails

A `Trail` is what a depth-first walk remembers of the nodes it met, and decides which nodes it
enters.  `Visited` holds every node entered so far, so a node is entered once.  `Path` holds the
nodes between the first one and the current one, so a node is entered once on every path, and only a
step back to the path is refused.  `MarkedPath` does the same and looks up marks instead of the
path.  The node to be left is named: it is the last one entered which was not left yet.
-/

namespace MethodFlow

/-- What a walk remembers of the nodes it met. -/
class Trail (τ : Type) where
  /-- The trail of a walk before its first node. -/
  empty : τ
  /-- The trail inside a node, or nothing if the node is not to be entered. -/
  enter? : Node → τ → Option τ
  /-- The trail once everything behind an entered node was walked and the node is left. -/
  leave : Node → τ → τ

/-- The nodes entered so far, in the order of entering. -/
structure Visited where
  nodes : List Node
deriving DecidableEq, Inhabited

namespace Visited

instance : Trail Visited where
  empty := ⟨[]⟩
  enter? n v := if n ∈ v.nodes then none else some ⟨v.nodes ++ [n]⟩
  leave _ v := v

theorem enter?_eq
    (n : Node) (v : Visited) :
  Trail.enter? n v = if n ∈ v.nodes then none else some ⟨v.nodes ++ [n]⟩
  := rfl

/-- Whether a node was entered. -/
def contains (v : Visited) (n : Node) : Bool :=
  v.nodes.contains n

/-- How many nodes were entered before a node. -/
def number (v : Visited) (n : Node) : Nat :=
  v.nodes.idxOf n

end Visited

/-- The nodes on the way from the first node to the current one, the current one first. -/
structure Path where
  nodes : List Node
deriving DecidableEq, Inhabited

namespace Path

instance : Trail Path where
  empty := ⟨[]⟩
  enter? n p := if n ∈ p.nodes then none else some ⟨n :: p.nodes⟩
  leave _ p := ⟨p.nodes.tail⟩

theorem enter?_eq
    (n : Node) (p : Path) :
  Trail.enter? n p = if n ∈ p.nodes then none else some ⟨n :: p.nodes⟩
  := rfl

theorem leave_of_enter?
    {p q : Path} {n : Node} (h : Trail.enter? n p = some q) :
  Trail.leave n q = p
  := by
  simp only [enter?_eq, Option.ite_none_left_eq_some, Option.some.injEq] at h
  obtain ⟨-, rfl⟩ := h
  rfl

end Path

/-- The nodes on the way from the first node to the current one, kept twice: on a stack, the current
one on top, and as marks, which alone decide whether a node is entered. -/
structure MarkedPath where
  stack : List Node
  /-- The nodes marked, each one once. -/
  marks : List Node
deriving DecidableEq, Inhabited

namespace MarkedPath

instance : Trail MarkedPath where
  empty := ⟨[], []⟩
  enter? n p := if n ∈ p.marks then none else some ⟨n :: p.stack, n :: p.marks⟩
  leave n p := ⟨p.stack.tail, p.marks.erase n⟩

theorem enter?_eq
    (n : Node) (p : MarkedPath) :
  Trail.enter? n p = if n ∈ p.marks then none else some ⟨n :: p.stack, n :: p.marks⟩
  := rfl

/-- How many nodes are on the stack. -/
def depth (p : MarkedPath) : Nat :=
  p.stack.length

/-- Whether a node is marked. -/
def isMarked (p : MarkedPath) (n : Node) : Bool :=
  p.marks.contains n

theorem leave_of_enter?
    {p q : MarkedPath} {n : Node} (h : Trail.enter? n p = some q) :
  Trail.leave n q = p
  := by
  simp only [enter?_eq, Option.ite_none_left_eq_some, Option.some.injEq] at h
  obtain ⟨-, rfl⟩ := h
  change (⟨p.stack, (n :: p.marks).erase n⟩ : MarkedPath) = p
  rw [List.erase_cons_head]

theorem head?_stack_of_enter?
    {p q : MarkedPath} {n : Node} (h : Trail.enter? n p = some q) :
  q.stack.head? = some n
  := by
  simp only [enter?_eq, Option.ite_none_left_eq_some, Option.some.injEq] at h
  obtain ⟨-, rfl⟩ := h
  rfl

end MarkedPath

end MethodFlow
