import MethodFlow.Assembly
import MethodFlow.Assignment.Check
import MethodFlow.Bypass
import MethodFlow.Drawing.Dot
import MethodFlow.Log

/-!
# Jobs

A `Job` works on one flow graph and keeps a log.  Its state is a `Workspace`; what a job did to the
graph and what it logged stays when it fails.  The jobs of this module build the graph of a method,
bypass its empty blocks, check definite assignment and dump its drawing, and log what they did.
-/

namespace MethodFlow

/-- What a job works on. -/
structure Workspace where
  /-- The graph as it is now. -/
  graph : FlowGraph
  /-- What was logged, in order. -/
  log : List Event
  /-- What was handed to files, in order. -/
  dumps : List Dump
deriving Inhabited

/-- A workspace with a graph and nothing logged. -/
def Workspace.of (graph : FlowGraph) : Workspace :=
  ⟨graph, [], []⟩

/-- A computation on a workspace. -/
abbrev Job (α : Type) : Type :=
  EStateM Failure Workspace α

namespace Job

/-- The graph as it is now. -/
def graph : Job FlowGraph :=
  return (← get).graph

/-- Puts a graph in place of the present one. -/
def setGraph (g : FlowGraph) : Job Unit :=
  modify ({ · with graph := g })

/-- Logs an event. -/
def log (e : Event) : Job Unit :=
  modify fun w => { w with log := w.log ++ [e] }

/-- Takes the graph of a construction, closed, after its bindings are logged. -/
def complete (a : Assembly) : Job Unit := do
  let closed ← MonadExcept.ofExcept a.close
  closed.bindingLog.forM fun (label, node) => log (.bound label node)
  setGraph (← MonadExcept.ofExcept closed.result)

/-- Builds the flow graph of a method. -/
def build (m : Method) : Job Unit := do
  complete (← MonadExcept.ofExcept m.assembly)
  log (.built m.name (← graph).size)

/-- Bypasses the empty blocks of the graph and says whether there were any. -/
def bypass : Job Bool := do
  let outcome := (← graph).bypass
  setGraph outcome.graph
  let blocks ← MonadExcept.ofExcept outcome.blocks
  log (.bypassed blocks.length)
  MonadExcept.ofExcept outcome.changed

/-- Checks definite assignment. -/
def check : Job (List Finding) := do
  let findings ← MonadExcept.ofExcept (← graph).unassignedReads
  log (.checked findings.length)
  return findings

/-- Dumps the drawing of the graph, where `write` says of each text handed to a file why it could
not be written, if so. -/
def dump (write : Dump → Option WriteFailure) (stage : Stage) (destination : Destination) :
    Job Unit := do
  let text ← MonadExcept.ofExcept (← graph).dot
  match destination with
  | .log => log (.drawn text)
  | .file path =>
    let handed : Dump := ⟨stage, path, text⟩
    modify fun w => { w with dumps := w.dumps ++ [handed] }
    (write handed).forM fun reason => log (.unwritten path reason)

end Job

end MethodFlow
