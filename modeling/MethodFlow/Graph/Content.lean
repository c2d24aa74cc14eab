import MethodFlow.Action
import MethodFlow.Graph.Node

/-!
# The content of a node

`Content` is what a node holds: the actions of a block, the condition of a jump, and for each exit
of the node where it leads, if anywhere yet.
-/

namespace MethodFlow

/-- What a node holds. -/
inductive Content where
  /-- The start leads to the first node of the method. -/
  | start (next : Option Node)
  /-- The stop leads nowhere. -/
  | stop
  /-- A block runs its actions and leads on. -/
  | block (actions : List Action) (next : Option Node)
  /-- A jump evaluates its condition and leads on accordingly. -/
  | jump (condition : Expr) (ifTrue ifFalse : Option Node)
deriving Inhabited

namespace Content

/-- What a node with this content is. -/
def kind : Content → Kind
  | .start _ => .start
  | .stop => .stop
  | .block _ _ => .block
  | .jump _ _ _ => .jump

/-- Where an exit leads, if the content has the exit and the exit leads anywhere. -/
def target? : Content → Exit → Option Node
  | .start next, .next => next
  | .block _ next, .next => next
  | .jump _ ifTrue _, .ifTrue => ifTrue
  | .jump _ _ ifFalse, .ifFalse => ifFalse
  | _, _ => none

/-- The content with one exit led elsewhere.  A content without the exit is left as it is. -/
def redirect : Content → Exit → Node → Content
  | .start _, .next, m => .start (some m)
  | .block actions _, .next, m => .block actions (some m)
  | .jump condition _ ifFalse, .ifTrue, m => .jump condition (some m) ifFalse
  | .jump condition ifTrue _, .ifFalse, m => .jump condition ifTrue (some m)
  | c, _, _ => c

/-- The content with one more action at the end of its block.  A content which is no block is left
as it is. -/
def append : Content → Action → Content
  | .block actions next, a => .block (actions ++ [a]) next
  | c, _ => c

/-- The actions of a block.  Everything else has none. -/
def actions : Content → List Action
  | .block actions _ => actions
  | _ => []

/-- The condition of a jump. -/
def condition? : Content → Option Expr
  | .jump condition _ _ => some condition
  | _ => none

/-- Whether the content is that of a block without actions. -/
def isEmptyBlock : Content → Bool
  | .block [] _ => true
  | _ => false

@[simp]
theorem kind_redirect
    (c : Content) (p : Exit) (m : Node) :
  (c.redirect p m).kind = c.kind
  := by
  cases c <;> cases p <;> rfl

@[simp]
theorem actions_redirect
    (c : Content) (p : Exit) (m : Node) :
  (c.redirect p m).actions = c.actions
  := by
  cases c <;> cases p <;> rfl

@[simp]
theorem condition?_redirect
    (c : Content) (p : Exit) (m : Node) :
  (c.redirect p m).condition? = c.condition?
  := by
  cases c <;> cases p <;> rfl

theorem target?_redirect
    (c : Content) (p q : Exit) (m : Node) :
  (c.redirect p m).target? q = if q = p ∧ p ∈ c.kind.exits then some m else c.target? q
  := by
  cases c <;> cases p <;> cases q <;> rfl

@[simp]
theorem kind_append
    (c : Content) (a : Action) :
  (c.append a).kind = c.kind
  := by
  cases c <;> rfl

@[simp]
theorem target?_append
    (c : Content) (a : Action) (p : Exit) :
  (c.append a).target? p = c.target? p
  := by
  cases c <;> cases p <;> rfl

theorem target?_eq_none
    {c : Content} {p : Exit} (h : p ∉ c.kind.exits) :
  c.target? p = none
  := by
  revert h
  cases c <;> cases p <;> simp [target?, kind, Kind.exits]

end Content

end MethodFlow
