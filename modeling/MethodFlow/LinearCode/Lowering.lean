import MethodFlow.LinearCode.Instruction
import MethodFlow.Stmt

/-!
# Lowering structured code

`Stmt.code` writes a statement as linear code, taking labels as it goes.  A branch takes a label for
its body and one for what follows when the condition fails; all arms of one chain of conditions end
at one label, which the first arm with an alternative takes after its own code.  A loop takes three
labels, for its condition, its body and its exit, and its body jumps back to the condition.
-/

namespace MethodFlow

mutual

/-- The linear code of a statement. -/
def Stmt.code : Stmt → StateM Nat (List Instruction)
  | .act a => return [.act a]
  | .branch c body otherwise => do
    let ifTrue ← Label.fresh
    let ifFalse ← Label.fresh
    let first ← Stmt.bodyCode body
    let second ← otherwise.code ifFalse none
    return .branch c ifTrue ifFalse :: .place ifTrue :: first ++ second
  | .loop c body => do
    let header ← Label.fresh
    let inside ← Label.fresh
    let exit ← Label.fresh
    let round ← Stmt.bodyCode body
    return .place header :: .branch c inside exit :: .place inside :: round ++
      [.jump header, .place exit]
  | .block body => Stmt.bodyCode body

/-- The linear code of a list of statements. -/
def Stmt.bodyCode : List Stmt → StateM Nat (List Instruction)
  | [] => return []
  | s :: body => do
    let first ← s.code
    let second ← Stmt.bodyCode body
    return first ++ second

/-- The linear code which follows the body of a branch, where `ifFalse` is the label the branch
jumps to when its condition fails and `chainEnd` is the label at which the arms of the chain end, if
one is taken already. -/
def Else.code (ifFalse : Label) (chainEnd : Option Label) : Else → StateM Nat (List Instruction)
  | .absent => return .place ifFalse :: chainEnd.toList.map .place
  | .block body => do
    let stop ← chainEnd.getDM Label.fresh
    let second ← Stmt.bodyCode body
    return .jump stop :: .place ifFalse :: second ++ [.place stop]
  | .branch c body otherwise => do
    let stop ← chainEnd.getDM Label.fresh
    let onTrue ← Label.fresh
    let onFalse ← Label.fresh
    let second ← Stmt.bodyCode body
    let rest ← otherwise.code onFalse (some stop)
    return .jump stop :: .place ifFalse :: .branch c onTrue onFalse :: .place onTrue ::
      second ++ rest

end

/-- The linear code of a method, its labels numbered from `0`. -/
def Method.code (m : Method) : List Instruction :=
  ((Stmt.bodyCode m.body).run 0).1

end MethodFlow
