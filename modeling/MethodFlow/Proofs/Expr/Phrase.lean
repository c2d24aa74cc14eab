import MethodFlow.Expr

/-!
# Phrases

A `Phrase` is what the text of an expression can show of it: variables are names, and a literal has
no sign, so a negative integer is the negation of a literal.  The text of an expression is that of
its phrase (`Expr.render_phrase`).
-/

namespace MethodFlow

/-- The structure of an expression as source text. -/
inductive Phrase where
  /-- A literal without a sign. -/
  | number (value : Nat)
  /-- A truth value. -/
  | truth (value : Bool)
  /-- The name of a variable. -/
  | name (text : String)
  /-- A unary operator in front of its operand. -/
  | unary (op : UnOp) (operand : Phrase)
  /-- A binary operator between its operands. -/
  | binary (op : BinOp) (lhs rhs : Phrase)
deriving DecidableEq

/-- The phrase of an expression: each variable is replaced by its name, and each negative integer by
the negation of its absolute value. -/
def Expr.phrase : Expr → Phrase
  | .int (.ofNat n) => .number n
  | .int (.negSucc n) => .unary .neg (.number (n + 1))
  | .bool b => .truth b
  | .read v => .name v.name
  | .unary op e => .unary op e.phrase
  | .binary op l r => .binary op l.phrase r.phrase

namespace Phrase

/-- How tightly a phrase binds when it stands as an operand. -/
def level : Phrase → Nat
  | .binary op _ _ => op.level
  | _ => Expr.tightest

/-- The source text of a phrase. -/
def render : Phrase → String
  | .number n => toString n
  | .truth b => toString b
  | .name x => x
  | .unary op t => op.sign ++ Expr.enclose (t.level < Expr.tightest) t.render
  | .binary op l r =>
    Expr.enclose (l.level < op.level) l.render ++ " " ++ op.sign ++ " " ++
      Expr.enclose (r.level ≤ op.level) r.render

/-- The names in a phrase, from left to right and as often as they occur. -/
def names : Phrase → List String
  | .number _ | .truth _ => []
  | .name x => [x]
  | .unary _ t => t.names
  | .binary _ l r => l.names ++ r.names

end Phrase

namespace Expr

@[simp]
theorem level_phrase
    (e : Expr) :
  e.phrase.level = e.level
  := by
  cases e with
  | int value => cases value <;> rfl
  | _ => rfl

/-- The text of an expression is that of its phrase. -/
@[simp]
theorem render_phrase
    (e : Expr) :
  e.phrase.render = e.render
  := by
  induction e with
  | int value => cases value <;> rfl
  | bool value => rfl
  | read v => rfl
  | unary op e ih => rw [phrase, Phrase.render, render, level_phrase, ih]
  | binary op l r ihl ihr =>
      rw [phrase, Phrase.render, render, level_phrase, level_phrase, ihl, ihr]

/-- The names in the phrase of an expression are those of the variables it reads. -/
@[simp]
theorem names_phrase
    (e : Expr) :
  e.phrase.names = e.reads.map Variable.name
  := by
  induction e with
  | int value => cases value <;> rfl
  | bool value => rfl
  | read v => rfl
  | unary op e ih => rw [phrase, Phrase.names, reads, ih]
  | binary op l r ihl ihr => rw [phrase, Phrase.names, reads, ihl, ihr, List.map_append]

end Expr

end MethodFlow
