import MethodFlow.Graph.Node

/-!
# Failures

Why an operation on labels, graphs or passes is refused, and how the refusal is worded.  A failure
is about the use of the library; what is wrong with the analysed method is a `Finding`.
-/

namespace MethodFlow

/-- Why an operation is refused. -/
inductive Failure where
  /-- A label is jumped to and placed nowhere. -/
  | unplacedLabel (number : Nat)
  /-- A slot leads nowhere yet. -/
  | unsetSlot (kind : Kind) (exit : Exit)
  /-- A node has no such slot. -/
  | noSuchSlot (kind : Kind) (exit : Exit)
  /-- Only blocks hold actions. -/
  | notBlock (kind : Kind)
  /-- An empty block was reached through no slot which could be led past it. -/
  | noIncomingSlot
  /-- No pass has this name. -/
  | unknownPass (name : String)
  /-- Another pass has this name already. -/
  | passNameTaken (name : String)
deriving DecidableEq, Inhabited

/-- The text of a failure. -/
def Failure.message : Failure → String
  | .unplacedLabel number => "Label " ++ toString number ++ " was jumped to but never placed."
  | .unsetSlot kind exit => kind.name ++ " node has no " ++ exit.name ++ " edge set."
  | .noSuchSlot kind exit => kind.name ++ " node has no " ++ exit.name ++ " edge."
  | .notBlock kind =>
    "Statements can only be added to a basic block, not to a " ++ kind.name ++ " node."
  | .noIncomingSlot => "Empty basic block reached with no incoming edge to re-point."
  | .unknownPass name => "Unknown pass '" ++ name ++ "'."
  | .passNameTaken name => "A pass named '" ++ name ++ "' is already registered."

end MethodFlow
