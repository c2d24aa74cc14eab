import MethodFlow.Stmt

/-!
# Scopes

A `Scope` says of each variable whether it is declared and whether it has a value, and a read is
allowed in a stack of scopes when some scope of the stack says that the variable has a value.  A
declaration takes a value away again; an assignment gives one to declared variables only.
-/

namespace MethodFlow

/-- What was said of variables, by number, the latest first.  A variable of which `false` was said
last is declared and has no value yet. -/
abbrev Scope : Type :=
  List (Nat × Bool)

namespace Scope

/-- What was last said of a variable. -/
def state? (sc : Scope) (v : Variable) : Option Bool :=
  sc.lookup v.id

/-- Whether a variable is declared and has a value. -/
def hasValue (sc : Scope) (v : Variable) : Bool :=
  sc.state? v == some true

/-- The scope in which a variable is declared and has no value. -/
def declare (sc : Scope) (v : Variable) : Scope :=
  (v.id, false) :: sc

/-- The scope in which a variable has a value if it is declared. -/
def assign (sc : Scope) (v : Variable) : Scope :=
  if (sc.state? v).isSome then (v.id, true) :: sc else sc

/-- The scope in which exactly the given variables have values. -/
def ofParameters (parameters : List Parameter) : Scope :=
  parameters.map fun p => (p.var.id, true)

/-- The scope after an action. -/
def run (sc : Scope) : Action → Scope
  | .declare _ v => sc.declare v
  | .define _ v _ => (sc.declare v).assign v
  | .assign v _ => sc.assign v
  | .eval _ | .ret _ => sc

theorem state?_declare
    (sc : Scope) (v w : Variable) :
  (sc.declare v).state? w = if w.id = v.id then some false else sc.state? w
  := by
  by_cases h : w.id = v.id
  · simp [state?, declare, h]
  · simp [state?, declare, List.lookup_cons, h, beq_false_of_ne h]

/-- An assignment says of its variable that it has a value, if the variable is declared, and says
nothing of other variables. -/
theorem state?_assign
    (sc : Scope) (v w : Variable) :
  (sc.assign v).state? w
    = if w.id = v.id ∧ (sc.state? v).isSome then some true else sc.state? w
  := by
  unfold assign
  by_cases hv : (sc.state? v).isSome
  · rw [if_pos hv]
    by_cases h : w.id = v.id
    · rw [if_pos ⟨h, hv⟩]
      simp [h, state?]
    · simp [h, state?, List.lookup_cons, beq_false_of_ne h]
  · rw [if_neg hv, if_neg fun h => hv h.2]

/-- Whether a variable may be read where a stack of scopes is in force. -/
def allows (scopes : List Scope) (v : Variable) : Bool :=
  scopes.any (·.hasValue v)

end Scope

end MethodFlow
