/-!
# Nodes and slots

A `Node` is a handle into a flow graph: the start, the stop, or one of the inner nodes by the order
in which they were added.  The way on from a node goes through an `Exit`, and a `Slot` is one exit
of one node.
-/

namespace MethodFlow

/-- A handle of a node. -/
inductive Node where
  /-- Where every run starts. -/
  | start
  /-- Where every run stops. -/
  | stop
  /-- The inner node added after `position` others. -/
  | inner (position : Nat)
deriving DecidableEq, Inhabited

/-- The place of a node in the order of creation: the start comes first, then the stop, then the
inner nodes. -/
def Node.index : Node → Nat
  | .start => 0
  | .stop => 1
  | .inner i => i + 2

/-- What a node is. -/
inductive Kind where
  | start
  | stop
  | block
  | jump
deriving DecidableEq, Inhabited

/-- The name of a kind of node. -/
def Kind.name : Kind → String
  | .start => "Start"
  | .stop => "End"
  | .block => "BasicBlock"
  | .jump => "ConditionalJump"

/-- A way out of a node. -/
inductive Exit where
  /-- The only way out of the start or of a block. -/
  | next
  /-- The way out of a jump whose condition holds. -/
  | ifTrue
  /-- The way out of a jump whose condition fails. -/
  | ifFalse
deriving DecidableEq, Inhabited

/-- The name of an exit. -/
def Exit.name : Exit → String
  | .next => "next"
  | .ifTrue => "if-true"
  | .ifFalse => "if-false"

/-- The exits of the nodes of a kind, in the order in which they are followed. -/
def Kind.exits : Kind → List Exit
  | .start | .block => [.next]
  | .stop => []
  | .jump => [.ifTrue, .ifFalse]

/-- One way out of one node. -/
structure Slot where
  node : Node
  exit : Exit
deriving DecidableEq, Inhabited

end MethodFlow
