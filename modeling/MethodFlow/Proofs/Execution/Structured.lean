import Mathlib.Tactic.Common
import MethodFlow.Proofs.Graph.Execution
import MethodFlow.Stmt

/-!
# Execution of structured code

`Method.execute` runs the body of a method, statement by statement.  Every condition takes the next
of the given outcomes, a return ends the execution, and so does a condition for which no outcome is
left.
-/

namespace MethodFlow

/-- What happens during an execution, and how it ends. -/
structure Execution where
  observations : List Observation
  ending : Ending

/-- The execution in which something happens at first. -/
def Execution.behind (o : Observation) (x : Execution) : Execution :=
  { x with observations := o :: x.observations }

/-- The statements of an alternative.  A further condition of a chain is a branch of its own. -/
def Else.body : Else → List Stmt
  | .absent => []
  | .block body => body
  | .branch c body otherwise => [.branch c body otherwise]

/-- Behind one another, two bodies are no larger than they are together. -/
theorem Stmt.sizeOf_append
    (body body' : List Stmt) :
  sizeOf (body ++ body') + 1 = sizeOf body + sizeOf body'
  := by
  induction body with
  | nil =>
      rw [List.nil_append, List.nil.sizeOf_spec]
      apply Nat.add_comm
  | cons s body ih =>
      rw [List.cons_append, List.cons.sizeOf_spec, List.cons.sizeOf_spec]
      omega

/-- Executes the given statements, one after the other, under the outcomes `os`. -/
def Stmt.execute : List Stmt → List Bool → Execution
  | [], _ => ⟨[], .finished⟩
  | .act a :: rest, os =>
    if a.endsMethod then
      ⟨[.act a], .finished⟩
    else
      (Stmt.execute rest os).behind (.act a)
  | .block body :: rest, os => Stmt.execute (body ++ rest) os
  | .branch _ _ _ :: _, [] => ⟨[], .waiting⟩
  | .branch c body _ :: rest, true :: os => (Stmt.execute (body ++ rest) os).behind (.test c)
  | .branch c _ otherwise :: rest, false :: os =>
    (Stmt.execute (otherwise.body ++ rest) os).behind (.test c)
  | .loop _ _ :: _, [] => ⟨[], .waiting⟩
  | .loop c body :: rest, true :: os =>
    (Stmt.execute (body ++ .loop c body :: rest) os).behind (.test c)
  | .loop c _ :: rest, false :: os => (Stmt.execute rest os).behind (.test c)
termination_by body os => (os.length, sizeOf body)
decreasing_by
  · apply Prod.Lex.right
    rw [List.cons.sizeOf_spec]
    omega
  · apply Prod.Lex.right
    rw [List.cons.sizeOf_spec, Stmt.block.sizeOf_spec]
    have happend := Stmt.sizeOf_append body rest
    omega
  all_goals
    apply Prod.Lex.left
    apply Nat.lt_succ_self

/-- Executes a method under the outcomes `os`. -/
def Method.execute (m : Method) (os : List Bool) : Execution :=
  Stmt.execute m.body os

end MethodFlow
