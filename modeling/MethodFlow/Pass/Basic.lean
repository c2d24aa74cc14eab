import MethodFlow.Job

/-!
# Passes

A `Pass` is a named task on a flow graph: an analysis reports findings, a transformation says
whether it changed the graph.  The two passes of the library are `Pass.emptyBlocks` and
`Pass.definiteAssignment`.
-/

namespace MethodFlow

/-- What a pass does. -/
inductive Task where
  /-- A task which reports findings. -/
  | analysis (run : Job (List Finding))
  /-- A task which says whether it changed the graph. -/
  | transformation (run : Job Bool)

/-- A named task. -/
structure Pass where
  name : String
  description : String
  task : Task

namespace Pass

/-- Whether a pass reports findings. -/
def isAnalysis (p : Pass) : Bool :=
  match p.task with
  | .analysis _ => true
  | .transformation _ => false

/-- Whether a pass says if it changed the graph. -/
def isTransformation (p : Pass) : Bool :=
  !p.isAnalysis

/-- Runs a pass on the graph and logs what came of it. -/
def run (p : Pass) : Job (List Finding) := do
  match p.task with
  | .analysis task =>
    let findings ← task
    Job.log (.reported p.name findings.length)
    return findings
  | .transformation task =>
    let changed ← task
    Job.log (.transformed p.name changed)
    return []

/-- The pass which bypasses empty blocks. -/
def emptyBlocks : Pass where
  name := "eliminate-empty-blocks"
  description := "Re-point edges around basic blocks holding no statements"
  task := .transformation Job.bypass

/-- The pass which checks definite assignment. -/
def definiteAssignment : Pass where
  name := "definite-assignment"
  description := "Report variables which may be read before they are initialized"
  task := .analysis Job.check

end Pass

end MethodFlow
