/-!
# Findings

What an analysis tells the author of a method.
-/

namespace MethodFlow

/-- A problem found in a method. -/
inductive Finding where
  /-- A variable called `name` may be read before it has a value. -/
  | unassigned (name : String)
deriving DecidableEq, Inhabited

/-- The text of a finding. -/
def Finding.message : Finding → String
  | .unassigned name => "Variable '" ++ name ++ "' may be not initialized"

end MethodFlow
