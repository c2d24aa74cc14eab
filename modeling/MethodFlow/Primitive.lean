/-!
# Primitive types

The types a variable can be declared with, in the order in which they are compared, and the
keyword each one is written as.
-/

namespace MethodFlow

/-- The type of a variable. -/
inductive Primitive where
  | byte
  | short
  | int
  | long
  | char
  | float
  | double
  | bool
deriving DecidableEq, Ord, Inhabited

/-- The keyword of a primitive type. -/
def Primitive.keyword : Primitive → String
  | .byte => "byte"
  | .short => "short"
  | .int => "int"
  | .long => "long"
  | .char => "char"
  | .float => "float"
  | .double => "double"
  | .bool => "bool"

end MethodFlow
