import MethodFlow.Variable

/-!
# Expressions

Expressions over integers, truth values and variables.  `Expr.reads` lists the variables an
expression reads, `Expr.render` writes it as source text with the fewest parentheses its operators'
levels allow: an operand of a binary operator is enclosed when it binds less tightly, or equally
tightly on the right-hand side, and the operand of a unary operator when it is a binary expression.
-/

namespace MethodFlow

/-- The operators with one operand. -/
inductive UnOp where
  | neg
  | not
deriving DecidableEq, Inhabited

/-- The sign of a unary operator. -/
def UnOp.sign : UnOp → String
  | .neg => "-"
  | .not => "!"

/-- The operators with two operands. -/
inductive BinOp where
  | add
  | sub
  | mul
  | div
  | rem
  | eq
  | ne
  | lt
  | le
  | gt
  | ge
  | and
  | or
deriving DecidableEq, Inhabited

namespace BinOp

/-- The sign of a binary operator. -/
def sign : BinOp → String
  | .add => "+"
  | .sub => "-"
  | .mul => "*"
  | .div => "/"
  | .rem => "%"
  | .eq => "=="
  | .ne => "!="
  | .lt => "<"
  | .le => "<="
  | .gt => ">"
  | .ge => ">="
  | .and => "&&"
  | .or => "||"

/-- How tightly a binary operator binds, from `1` for the loosest to `6` for the tightest. -/
def level : BinOp → Nat
  | .or => 1
  | .and => 2
  | .eq | .ne => 3
  | .lt | .le | .gt | .ge => 4
  | .add | .sub => 5
  | .mul | .div | .rem => 6

end BinOp

/-- An expression of a method body. -/
inductive Expr where
  /-- An integer literal. -/
  | int (value : Int)
  /-- A truth value. -/
  | bool (value : Bool)
  /-- The current value of a variable. -/
  | read (var : Variable)
  /-- A unary operator applied to its operand. -/
  | unary (op : UnOp) (operand : Expr)
  /-- A binary operator applied to its operands. -/
  | binary (op : BinOp) (lhs rhs : Expr)
deriving BEq, Inhabited

namespace Expr

/-- The variables an expression reads, from left to right and as often as it reads them. -/
def reads : Expr → List Variable
  | .int _ | .bool _ => []
  | .read v => [v]
  | .unary _ e => e.reads
  | .binary _ l r => l.reads ++ r.reads

/-- The level of everything but a binary expression, above the level of every binary operator. -/
def tightest : Nat :=
  7

/-- How tightly an expression binds when it stands as an operand. -/
def level : Expr → Nat
  | .binary op _ _ => op.level
  | _ => tightest

theorem level_lt_tightest
    (op : BinOp) :
  op.level < tightest
  := by
  cases op <;> decide

/-- A text, enclosed in parentheses if asked to. -/
def enclose (needed : Bool) (text : String) : String :=
  if needed then "(" ++ text ++ ")" else text

/-- The source text of an expression. -/
def render : Expr → String
  | .int value => toString value
  | .bool value => toString value
  | .read v => v.name
  | .unary op e => op.sign ++ enclose (e.level < tightest) e.render
  | .binary op l r =>
    enclose (l.level < op.level) l.render ++ " " ++ op.sign ++ " " ++
      enclose (r.level ≤ op.level) r.render

end Expr

end MethodFlow
