import MethodFlow.Analysis
import MethodFlow.Proofs.Assembly.Completion
import MethodFlow.Proofs.Bypass.Clearing
import MethodFlow.Proofs.Execution.Preservation
import MethodFlow.Proofs.Pass.Sequence

/-!
# The analysis of a method never fails

Every slot of the graph of a method is set, so its drawing, the pipeline of passes and the drawing
afterwards are there.  `DumpPlan.logged` and `DumpPlan.handed` say what making a dump leaves, and
`Method.analyze_eq` what the whole analysis leaves: what it finds is what the check of the graph as
built finds, whatever is dumped and whatever becomes of it.
-/

namespace MethodFlow

namespace DumpPlan

/-- What is logged when the dump of a stage is made, if the plan asks for it. -/
def logged (plan : DumpPlan) (write : Dump → Option WriteFailure) (stage : Stage) (text : String) :
    List Event :=
  match plan.destination? stage with
  | none => []
  | some .log => [.drawn text]
  | some (.file path) => ((write ⟨stage, path, text⟩).map (.unwritten path)).toList

/-- What is handed to a file when the dump of a stage is made, if the plan asks for it. -/
def handed (plan : DumpPlan) (stage : Stage) (text : String) : List Dump :=
  match plan.destination? stage with
  | some (.file path) => [⟨stage, path, text⟩]
  | _ => []

end DumpPlan

namespace Job

variable {g : FlowGraph} {log : List Event} {dumps : List Dump}
  {write : Dump → Option WriteFailure} {stage : Stage} {text : String} {findings : List Finding}

/-- Logging why a text could not be written adds the reason to the log, if there is one. -/
theorem forM_log_option
    (f : WriteFailure → Event) (reason : Option WriteFailure) (w : Workspace) :
  (reason.forM fun r => Job.log (f r)) w = .ok () { w with log := w.log ++ (reason.map f).toList }
  := by
  cases reason with
  | none =>
      rw [Option.map_none, Option.toList_none, List.append_nil]
      rfl
  | some r => rfl

/-- Where the drawing is there, making a dump leaves its text in the log or hands it to a file. -/
theorem dump_of_ok
    (h : g.dot = .ok text) (plan : DumpPlan) :
  ((plan.destination? stage).forM (dump write stage) : Job Unit) ⟨g, log, dumps⟩
    = .ok () ⟨g, log ++ plan.logged write stage text, dumps ++ plan.handed stage text⟩
  := by
  unfold DumpPlan.logged DumpPlan.handed
  cases plan.destination? stage with
  | none =>
      rw [List.append_nil, List.append_nil]
      rfl
  | some destination =>
      change (MonadExcept.ofExcept g.dot >>= _ : Job Unit) _ = _
      rw [h]
      cases destination with
      | log =>
          rw [List.append_nil]
          rfl
      | file path => apply forM_log_option

/-- Where the check of the graph does not fail, the pipeline finds what the check finds and leaves
the graph with its empty blocks bypassed. -/
theorem pipeline_of_ok
    (h : g.unassignedReads = .ok findings) {blocks : List Node}
    (hblocks : g.bypass.blocks = .ok blocks) :
  pipeline ⟨g, log, dumps⟩
    = .ok findings ⟨g.bypass.graph, log ++ [
        .bypassed blocks.length, .transformed Pass.emptyBlocks.name (!blocks.isEmpty),
        .checked findings.length, .reported Pass.definiteAssignment.name findings.length], dumps⟩
  := by
  have hfirst : Catalogue.known.find? Pass.emptyBlocks.name = some .emptyBlocks := rfl
  have hsecond :
    Catalogue.known.find? Pass.definiteAssignment.name = some .definiteAssignment := rfl
  have hafter : g.bypass.graph.unassignedReads = .ok findings := by
    rw [g.shortcut_bypass.unassignedReads, h]
  have hbypass := Pass.run_emptyBlocks (w := ⟨g, log, dumps⟩) hblocks
  have hcheck := Pass.run_definiteAssignment (w := ⟨g.bypass.graph, log ++ [
    .bypassed blocks.length, .transformed Pass.emptyBlocks.name (!blocks.isEmpty)], dumps⟩) hafter
  rw [pipeline, Catalogue.pipeline, Catalogue.run_cons_of_ok hfirst hbypass,
    Catalogue.run_cons_of_ok hsecond hcheck]
  simp

end Job

/-- Every method has a flow graph, and every slot of it which can be reached is set. -/
theorem Method.exists_wired
    (m : Method) :
  ∃ g, m.flowGraph = .ok g ∧ g.Wired
  := by
  obtain ⟨a, g, ha, hcomplete, hgraph, -⟩ := m.exists_complete
  exact ⟨g, hgraph, Assembly.wired_of_complete ha hcomplete⟩

/-- The analysis of a method succeeds whatever is to be dumped and whatever becomes of what is
handed to files.  It finds what the check of the graph of the method finds, and what it dumps are
the drawings of this graph before and after its empty blocks are bypassed. -/
theorem Method.analyze_eq
    (m : Method) :
  ∃ g text normalized findings blocks, ∃ bindings : List (Label × Node),
    m.flowGraph = .ok g ∧ g.dot = .ok text ∧ g.bypass.graph.dot = .ok normalized
      ∧ g.unassignedReads = .ok findings ∧ g.bypass.blocks = .ok blocks
      ∧ ∀ plan write, m.analyze plan write = {
        findings := .ok findings
        log := bindings.map (fun x => .bound x.1 x.2) ++ [.built m.name g.size]
          ++ plan.logged write .built text
          ++ [.bypassed blocks.length, .transformed Pass.emptyBlocks.name (!blocks.isEmpty),
            .checked findings.length, .reported Pass.definiteAssignment.name findings.length]
          ++ plan.logged write .normalized normalized
          ++ [.analyzed m.name findings.length]
        dumps := plan.handed .built text ++ plan.handed .normalized normalized }
  := by
  obtain ⟨g, hgraph, hwired⟩ := m.exists_wired
  obtain ⟨bindings, hbuild⟩ := Job.exists_build hgraph
  obtain ⟨text, htext⟩ := hwired.exists_dot
  obtain ⟨normalized, hnormalized⟩ := (g.shortcut_bypass.wired hwired).exists_dot
  obtain ⟨findings, hfindings⟩ := hwired.exists_findings
  obtain ⟨blocks, hblocks⟩ := hwired.exists_blocks
  use g, text, normalized, findings, blocks, bindings
  use hgraph, htext, hnormalized, hfindings, hblocks
  intro plan write
  rw [Method.analyze, Job.analyze, Job.bind_of_ok (hbuild _),
    Job.bind_of_ok (Job.dump_of_ok htext _),
    Job.bind_of_ok (Job.pipeline_of_ok hfindings hblocks),
    Job.bind_of_ok (Job.dump_of_ok hnormalized _)]
  rfl

end MethodFlow
