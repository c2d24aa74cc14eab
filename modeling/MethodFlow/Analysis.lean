import MethodFlow.Pass.Catalogue

/-!
# The analysis of a method

`Method.analyze` builds the flow graph of a method, runs the pipeline of passes on it and dumps the
drawing of the graph before and after, as far as a plan asks for dumps.  What becomes of a text
handed to a file changes nothing but the log.
-/

namespace MethodFlow

/-- Runs the pipeline of passes on the graph. -/
def Job.pipeline : Job (List Finding) :=
  Catalogue.known.run Catalogue.pipeline

/-- Builds the graph of a method, runs the pipeline on it, and makes the dumps of a plan. -/
def Job.analyze (m : Method) (plan : DumpPlan) (write : Dump → Option WriteFailure) :
    Job (List Finding) := do
  build m
  (plan.destination? .built).forM (dump write .built)
  let findings ← pipeline
  (plan.destination? .normalized).forM (dump write .normalized)
  log (.analyzed m.name findings.length)
  return findings

/-- What came of the analysis of a method. -/
structure Analysis where
  findings : Except Failure (List Finding)
  /-- What was logged, in order. -/
  log : List Event
  /-- What was handed to files, in order. -/
  dumps : List Dump
deriving Inhabited

/-- The analysis of a method with the dumps of a plan, where `write` says of each text handed to a
file why it could not be written, if so. -/
def Method.analyze (m : Method) (plan : DumpPlan) (write : Dump → Option WriteFailure) : Analysis :=
  match Job.analyze m plan write (.of (.empty m.parameters)) with
  | .ok findings w => ⟨.ok findings, w.log, w.dumps⟩
  | .error e w => ⟨.error e, w.log, w.dumps⟩

end MethodFlow
