import MethodFlow.Pass.Basic

/-!
# Catalogues of passes

A `Catalogue` holds passes under different names, in the order in which they were registered.
`Catalogue.run` runs the passes of a list of names one after the other, and `Catalogue.pipeline` is
the list of names which an analysis runs.
-/

namespace MethodFlow

/-- The passes which can be run by name. -/
structure Catalogue where
  passes : List Pass

namespace Catalogue

instance : Inhabited Catalogue := ⟨⟨[]⟩⟩

/-- The catalogue without a pass. -/
def empty : Catalogue :=
  ⟨[]⟩

/-- The pass registered under a name. -/
def find? (c : Catalogue) (name : String) : Option Pass :=
  c.passes.find? (·.name == name)

/-- Whether a pass is registered under a name. -/
def contains (c : Catalogue) (name : String) : Bool :=
  (c.find? name).isSome

/-- Registers a pass behind the others.  It fails when another pass has the name. -/
def add (p : Pass) : EStateM Failure Catalogue Unit := do
  if (← get).contains p.name then
    throw (.passNameTaken p.name)
  else
    modify fun c => ⟨c.passes ++ [p]⟩

/-- Registers the passes of the library. -/
def addKnown : EStateM Failure Catalogue Unit := do
  add .emptyBlocks
  add .definiteAssignment

/-- The passes of the library. -/
def known : Catalogue :=
  ⟨[.emptyBlocks, .definiteAssignment]⟩

-- These are the passes which `addKnown` registers.
example : addKnown.run empty = .ok () known := by rfl

/-- Runs passes by name, one after the other, and collects their findings in order.  It stops at the
first name without a pass and at the first pass which fails. -/
def run (c : Catalogue) : List String → Job (List Finding)
  | [] => return []
  | name :: names => do
    match c.find? name with
    | none => throw (.unknownPass name)
    | some p =>
      let first ← p.run
      let rest ← c.run names
      return first ++ rest

/-- The names of the passes of an analysis: empty blocks are bypassed before the check. -/
def pipeline : List String :=
  [Pass.emptyBlocks.name, Pass.definiteAssignment.name]

/-- A text brought to a width by blanks behind it. -/
def pad (width : Nat) (text : String) : String :=
  text.pushn ' ' (width - text.length)

/-- The line which describes a pass. -/
def overviewLine (p : Pass) : String :=
  "  " ++ pad 24 p.name ++ " - " ++ p.description

/-- The text which lists the passes of a catalogue. -/
def overview (c : Catalogue) : String :=
  "Valid pass names are:\n\n" ++ "\n".intercalate (c.passes.map overviewLine)

end Catalogue

end MethodFlow
