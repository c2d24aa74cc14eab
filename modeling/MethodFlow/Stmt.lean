import MethodFlow.Action

/-!
# Statements and methods

The structured body of a method: actions, branches, loops and nested blocks.  A branch carries what
follows its first arm as an `Else`, so a chain of conditions is one nested value.  Statements are
compared part by part, variables by number.
-/

namespace MethodFlow

mutual

/-- A statement of a method body. -/
inductive Stmt where
  /-- A simple statement. -/
  | act (action : Action)
  /-- A branch on a condition, with the body run when it holds and what is run otherwise. -/
  | branch (condition : Expr) (body : List Stmt) (otherwise : Else)
  /-- A loop whose condition is tested before each round. -/
  | loop (condition : Expr) (body : List Stmt)
  /-- A nested block. -/
  | block (body : List Stmt)

/-- What a branch runs when its condition fails. -/
inductive Else where
  /-- Nothing. -/
  | absent
  /-- A block. -/
  | block (body : List Stmt)
  /-- A further condition of the same chain. -/
  | branch (condition : Expr) (body : List Stmt) (otherwise : Else)

end

instance : Inhabited Stmt := ⟨.block []⟩

instance : Inhabited Else := ⟨.absent⟩

mutual

/-- Whether two statements are equal. -/
def Stmt.beq : Stmt → Stmt → Bool
  | .act a, .act a' => a == a'
  | .branch c b e, .branch c' b' e' => c == c' && Stmt.beqBody b b' && e.beq e'
  | .loop c b, .loop c' b' => c == c' && Stmt.beqBody b b'
  | .block b, .block b' => Stmt.beqBody b b'
  | _, _ => false

/-- Whether two lists of statements are equal. -/
def Stmt.beqBody : List Stmt → List Stmt → Bool
  | [], [] => true
  | s :: b, s' :: b' => s.beq s' && Stmt.beqBody b b'
  | _, _ => false

/-- Whether two alternatives of a branch are equal. -/
def Else.beq : Else → Else → Bool
  | .absent, .absent => true
  | .block b, .block b' => Stmt.beqBody b b'
  | .branch c b e, .branch c' b' e' => c == c' && Stmt.beqBody b b' && e.beq e'
  | _, _ => false

end

instance : BEq Stmt := ⟨Stmt.beq⟩

instance : BEq Else := ⟨Else.beq⟩

/-- A variable which has a value when the method starts. -/
structure Parameter where
  var : Variable
  type : Primitive
deriving BEq, Inhabited

/-- A method: its name, its parameters and its body. -/
structure Method where
  name : String
  parameters : List Parameter
  body : List Stmt
deriving BEq, Inhabited

end MethodFlow
