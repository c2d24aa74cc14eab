import MethodFlow.Expr
import MethodFlow.Primitive

/-!
# Actions

An `Action` is a statement without control flow of its own: what a basic block holds.  It is an
evaluation, an assignment, a declaration with or without initial value, or a return.
-/

namespace MethodFlow

/-- A simple statement. -/
inductive Action where
  /-- The evaluation of an expression. -/
  | eval (value : Expr)
  /-- The assignment of a value to a variable. -/
  | assign (target : Variable) (value : Expr)
  /-- The declaration of a variable without a value. -/
  | declare (type : Primitive) (var : Variable)
  /-- The declaration of a variable with an initial value, its type written or left to be
  inferred. -/
  | define (type : Option Primitive) (var : Variable) (value : Expr)
  /-- The end of the method, with any number of results. -/
  | ret (values : List Expr)
deriving BEq, Inhabited

namespace Action

/-- Whether an action ends the method. -/
def endsMethod : Action → Bool
  | .ret _ => true
  | _ => false

/-- The variables an action reads, from left to right and as often as it reads them. -/
def reads : Action → List Variable
  | .eval e | .assign _ e | .define _ _ e => e.reads
  | .declare _ _ => []
  | .ret values => values.flatMap Expr.reads

/-- The source text of an action. -/
def render : Action → String
  | .eval e => e.render ++ ";"
  | .assign v e => v.name ++ " = " ++ e.render ++ ";"
  | .declare t v => t.keyword ++ " " ++ v.name ++ ";"
  | .define t v e => t.elim "var" Primitive.keyword ++ " " ++ v.name ++ " = " ++ e.render ++ ";"
  | .ret [] => "return;"
  | .ret values => "return " ++ ", ".intercalate (values.map Expr.render) ++ ";"

end Action

end MethodFlow
