import MethodFlow.Action

/-!
# Linear code

Linear code is a list of `Instruction`s, run from front to back: actions, places of labels, jumps
and branches to labels.  A `Label` is a number; it may be placed before or after the jumps which
name it, and `Label.fresh` takes the next number not yet used.
-/

namespace MethodFlow

/-- A name for a place in linear code. -/
structure Label where
  number : Nat
deriving DecidableEq, Inhabited

/-- Takes the next label, the state being how many were taken before. -/
def Label.fresh : StateM Nat Label :=
  modifyGet fun taken => (⟨taken⟩, taken + 1)

/-- A step of linear code. -/
inductive Instruction where
  /-- The place of a label. -/
  | place (label : Label)
  /-- An action, after which the next instruction runs unless the action is a return. -/
  | act (action : Action)
  /-- A jump to one of two labels, by the value of a condition. -/
  | branch (condition : Expr) (ifTrue ifFalse : Label)
  /-- A jump to a label. -/
  | jump (label : Label)
deriving Inhabited

/-- The labels an instruction may jump to. -/
def Instruction.targets : Instruction → List Label
  | .place _ | .act _ => []
  | .branch _ t f => [t, f]
  | .jump l => [l]

end MethodFlow
