/-!
# Variables

A `Variable` is a number together with the name the variable was declared with.  The number alone
says which variable it is: two variables may share a name, and a scope, a comparison or an order
looks at the number only.  `Variable.ofNames` numbers a list of names, and `Variable.tagged` writes
a name with its number.
-/

namespace MethodFlow

/-- A variable of a method: its number and the name it was declared with. -/
structure Variable where
  id : Nat
  name : String
deriving Inhabited

namespace Variable

/-- Variables are compared by number. -/
instance : BEq Variable where
  beq v w := v.id == w.id

/-- Variables are ordered by number. -/
instance : Ord Variable where
  compare v w := compare v.id w.id

theorem beq_iff
    {v w : Variable} :
  (v == w) = true ↔ v.id = w.id
  := by
  change (v.id == w.id) = true ↔ v.id = w.id
  apply beq_iff_eq

/-- One new variable for each name, numbered from `0` in the order of the names. -/
def ofNames (names : List String) : List Variable :=
  names.mapIdx fun id name => ⟨id, name⟩

/-- The name of a variable followed by `#` and its number. -/
def tagged (v : Variable) : String :=
  v.name ++ "#" ++ toString v.id

end Variable

end MethodFlow
